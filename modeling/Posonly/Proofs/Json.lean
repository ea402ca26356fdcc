import Posonly.Json
import Posonly.Proofs.Text.Encoding

/-!
# Written JSON is read back

The values of a manifest are objects whose fields are strings. What is written for such an object is
read back as it was (`parse?_write`), stays on one line, and has no surrogate without its partner,
whatever its strings hold.
-/

open List

namespace Posonly

namespace Text

theorem hexDigit_eq {n : Nat} (h : n < 16) :
    Json.hexValue? (hexDigit n) = some n ∧ 0x30 ≤ (hexDigit n).toNat ∧
      (hexDigit n).toNat ≤ 0x66 := by
  have hall : ∀ n : Fin 16, Json.hexValue? (hexDigit n) = some n.val ∧
      0x30 ≤ (hexDigit n).toNat ∧ (hexDigit n).toNat ≤ 0x66 := by decide
  exact hall ⟨n, h⟩

/-- A unit as it is written inside a string, unless it is half of a pair. -/
def written (u : UInt16) : Text :=
  if isHighSurrogate u || isLowSurrogate u then escapeHex u else quoteUnit u

/-- The ways in which a unit is written inside a string. -/
inductive Spelling (u : UInt16) : Text → Prop where
  | short {e : UInt16} :
      Json.escapeUnit? e = some u → e ∈ [0x22, 0x5C, 0x62, 0x66, 0x6E, 0x72, 0x74] →
      Spelling u [0x5C, e]
  | hex : Spelling u (escapeHex u)
  | plain : u ≠ 0x22 → u ≠ 0x5C → ¬ u < 0x20 → isSurrogate u = false → Spelling u [u]

theorem spelling_written (u : UInt16) : Spelling u (written u) := by
  have hshort : ∀ e v : UInt16, (u == v) = true → Json.escapeUnit? e = some v →
      e ∈ ([0x22, 0x5C, 0x62, 0x66, 0x6E, 0x72, 0x74] : Text) → Spelling u [0x5C, e] := by
    intro e v hu he hmem
    exact .short (by rw [he, beq_iff_eq.mp hu]) hmem
  unfold written quoteUnit
  split_ifs with hpair hquote h8 h9 hA hC hD hlow
  · exact .hex
  · rw [Bool.or_eq_true, beq_iff_eq, beq_iff_eq] at hquote
    rcases hquote with rfl | rfl
    · exact .short rfl (by decide)
    · exact .short rfl (by decide)
  · exact hshort _ _ h8 rfl (by decide)
  · exact hshort _ _ h9 rfl (by decide)
  · exact hshort _ _ hA rfl (by decide)
  · exact hshort _ _ hC rfl (by decide)
  · exact hshort _ _ hD rfl (by decide)
  · exact .hex
  · rw [Bool.or_eq_true, not_or, beq_iff_eq, beq_iff_eq] at hquote
    exact .plain hquote.1 hquote.2 hlow (by simpa [isSurrogate] using hpair)

variable {u v : UInt16} {w : Text}

theorem readString?_plain (hquote : u ≠ 0x22) (hslash : u ≠ 0x5C) (hlow : ¬ u < 0x20)
    (rest : Text) :
    Json.readString? (u :: rest) = (Json.readString? rest).map fun (s, rest) => (u :: s, rest) := by
  rw [Json.readString?.eq_def]
  dsimp only
  rw [if_neg (by rwa [beq_iff_eq]), if_neg (by rwa [beq_iff_eq]), if_neg hlow]
  cases Json.readString? rest <;> rfl

theorem hexUnit?_digits (u : UInt16) :
    Json.hexUnit? (hexDigit (u.toNat / 0x1000)) (hexDigit (u.toNat / 0x100 % 0x10))
      (hexDigit (u.toNat / 0x10 % 0x10)) (hexDigit (u.toNat % 0x10)) = some u := by
  have hu := u.toNat_lt
  unfold Json.hexUnit?
  rw [(hexDigit_eq (by omega)).1, (hexDigit_eq (by omega)).1, (hexDigit_eq (by omega)).1,
    (hexDigit_eq (by omega)).1]
  change some (Nat.toUInt16 _) = some u
  rw [show 0x1000 * (u.toNat / 0x1000) + 0x100 * (u.toNat / 0x100 % 0x10) +
    0x10 * (u.toNat / 0x10 % 0x10) + u.toNat % 0x10 = u.toNat by omega]
  simp

theorem Spelling.readString? (h : Spelling u w) (rest : Text) : Json.readString? (w ++ rest) =
      (Json.readString? rest).map fun (s, rest) => (u :: s, rest) := by
  cases h with
  | @short e he hmem =>
    have hu : (e == 0x75) = false := by
      rw [beq_eq_false_iff_ne]
      rintro rfl
      exact absurd hmem (by decide)
    rw [Json.readString?.eq_def]
    dsimp only [cons_append, nil_append]
    rw [if_neg (by decide), if_pos (by decide), if_neg (by rw [hu]; simp), he]
    cases Json.readString? rest <;> rfl
  | hex =>
    rw [escapeHex, Json.readString?.eq_def]
    dsimp only [cons_append, nil_append]
    rw [if_neg (by decide), if_pos (by decide), if_pos (by decide), hexUnit?_digits]
    cases Json.readString? rest <;> rfl
  | plain hquote hslash hlow _ => exact readString?_plain hquote hslash hlow rest

theorem readString?_surrogate (h : isSurrogate u = true) (rest : Text) :
    Json.readString? (u :: rest) = (Json.readString? rest).map fun (s, rest) => (u :: s, rest) := by
  refine readString?_plain ?_ ?_ ?_ rest
  · rintro rfl
    cases h
  · rintro rfl
    cases h
  · rw [← isSurrogateCode_toNat, isSurrogateCode, Bool.and_eq_true, decide_eq_true_eq] at h
    rw [UInt16.lt_iff_toNat_lt]
    change ¬ u.toNat < 0x20
    omega

theorem escaped_singleton (u : UInt16) : escaped [u] = written u := rfl

theorem escaped_pair (h : (isHighSurrogate u && isLowSurrogate v) = true) (rest : Text) :
    escaped (u :: v :: rest) = u :: v :: escaped rest := by
  rw [escaped, if_pos h]

theorem escaped_cons (h : ¬ (isHighSurrogate u && isLowSurrogate v) = true) (rest : Text) :
    escaped (u :: v :: rest) = written u ++ escaped (v :: rest) := by
  rw [escaped, if_neg h]
  rfl

/-- **A written string is read back**, up to its closing quote and past it. -/
theorem readString?_escaped (t rest : Text) :
    Json.readString? (t.escaped ++ 0x22 :: rest) = some (t, rest) := by
  have hend : Json.readString? (0x22 :: rest) = some ([], rest) := by
    rw [Json.readString?.eq_def]
    rfl
  induction t using codePoints.induct with
  | case1 => exact hend
  | case2 u => rw [escaped_singleton, (spelling_written u).readString?, hend]; rfl
  | case3 u v t hpair ih =>
    rw [escaped_pair hpair, cons_append, cons_append]
    rw [Bool.and_eq_true] at hpair
    rw [readString?_surrogate (by rw [isSurrogate, hpair.1, Bool.true_or]),
      readString?_surrogate (by rw [isSurrogate, hpair.2, Bool.or_true]), ih]
    rfl
  | case4 u v t hpair ih =>
    rw [escaped_cons hpair, append_assoc, (spelling_written u).readString?, ih]
    rfl

/-- What is written of a unit needs no partner and stays on its line. -/
theorem Spelling.mem (h : Spelling u w) (hv : v ∈ w) : isSurrogate v = false ∧ v ≠ 0x0A := by
  have hhex : ∀ n, n < 16 → isSurrogate (hexDigit n) = false ∧ hexDigit n ≠ 0x0A := by decide
  have hmark : ∀ e ∈ ([0x22, 0x5C, 0x62, 0x66, 0x6E, 0x72, 0x74, 0x75] : Text),
      isSurrogate e = false ∧ e ≠ 0x0A := by decide
  have hu := u.toNat_lt
  cases h with
  | @short e _ hmem =>
    rcases mem_pair.mp hv with rfl | rfl
    · decide
    · exact hmark v (mem_append_left [0x75] hmem)
  | hex =>
    rw [escapeHex] at hv
    simp only [mem_cons, not_mem_nil, or_false] at hv
    rcases hv with rfl | rfl | rfl | rfl | rfl | rfl
    · decide
    · decide
    · exact hhex _ (by omega)
    · exact hhex _ (by omega)
    · exact hhex _ (by omega)
    · exact hhex _ (by omega)
  | plain _ _ hlow hplain =>
    rw [mem_singleton.mp hv]
    exact ⟨hplain, fun h => hlow (by rw [h]; decide)⟩

/-- A text that is paired and has no line feed in it. -/
def OneLine (t : Text) : Prop := t.Paired ∧ (0x0A : UInt16) ∉ t

instance (t : Text) : Decidable t.OneLine :=
  inferInstanceAs (Decidable (t.Paired ∧ (0x0A : UInt16) ∉ t))

theorem OneLine.append {a b : Text} (ha : OneLine a) (hb : OneLine b) : OneLine (a ++ b) :=
  ⟨ha.1.append hb.1, by rw [mem_append, not_or]; exact ⟨ha.2, hb.2⟩⟩

theorem oneLine_escaped (t : Text) : OneLine t.escaped := by
  have hunit : ∀ u, OneLine (written u) := fun u =>
    ⟨paired_of_forall fun v hv => ((spelling_written u).mem hv).1,
      fun hv => ((spelling_written u).mem hv).2 rfl⟩
  induction t using codePoints.induct with
  | case1 => exact ⟨paired_nil, by simp [escaped]⟩
  | case2 u => exact hunit u
  | case3 u v t hpair ih =>
    rw [escaped_pair hpair]
    refine ⟨paired_pair hpair ih.1, ?_⟩
    rw [mem_cons, mem_cons, not_or, not_or]
    rw [Bool.and_eq_true] at hpair
    refine ⟨?_, ?_, ih.2⟩
    · rintro rfl
      exact absurd hpair.1 (by decide)
    · rintro rfl
      exact absurd hpair.2 (by decide)
  | case4 u v t hpair ih =>
    rw [escaped_cons hpair]
    exact (hunit u).append ih

theorem oneLine_quoted (t : Text) : OneLine t.quoted := by
  have hquote : OneLine [0x22] := by decide
  exact (hquote.append (oneLine_escaped t)).append hquote

end Text

namespace Json

/-- Fields whose values are strings. -/
def stringFields (fields : List (Text × Text)) : List (Text × Json) :=
  fields.map fun f => (f.1, .string f.2)

theorem skipSpace_cons {u : UInt16} (h : isSpace u = false) (rest : Text) :
    skipSpace (u :: rest) = u :: rest := by
  rw [skipSpace, dropWhile_cons_of_neg (by rw [h]; simp)]

theorem readValue?_quoted (fuel : Nat) (t rest : Text) :
    readValue? (fuel + 1) (t.quoted ++ rest) = some (.string t, rest) := by
  rw [readValue?, Text.quoted, cons_append, skipSpace_cons (by decide)]
  dsimp only
  rw [if_pos (by decide), append_assoc, singleton_append, Text.readString?_escaped]
  rfl

section

variable (fuel : Nat) (key value rest : Text)

theorem skipSpace_quoted :
    skipSpace (key.quoted ++ rest) = 0x22 :: (key.escaped ++ 0x22 :: rest) := by
  rw [Text.quoted, cons_append, skipSpace_cons (by decide), append_assoc]
  rfl

theorem readFields?_last :
    readFields? (fuel + 2) (key.quoted ++ 0x3A :: (value.quoted ++ 0x7D :: rest)) =
      some ([(key, .string value)], rest) := by
  have hcolon := skipSpace_cons (show isSpace 0x3A = false by decide) (value.quoted ++ 0x7D :: rest)
  have hend := skipSpace_cons (show isSpace 0x7D = false by decide) rest
  rw [readFields?, skipSpace_quoted]
  simp only [Text.readString?_escaped, Option.bind_eq_bind, Option.bind_some, hcolon,
    readValue?_quoted, hend]
  rfl

theorem readFields?_more :
    readFields? (fuel + 2) (key.quoted ++ 0x3A :: (value.quoted ++ 0x2C :: rest)) =
      (readFields? (fuel + 1) rest).map fun (fields, rest) =>
        ((key, .string value) :: fields, rest) := by
  have hcolon := skipSpace_cons (show isSpace 0x3A = false by decide) (value.quoted ++ 0x2C :: rest)
  have hcomma := skipSpace_cons (show isSpace 0x2C = false by decide) rest
  rw [readFields?, skipSpace_quoted]
  simp only [Text.readString?_escaped, Option.bind_eq_bind, Option.bind_some, hcolon,
    readValue?_quoted, hcomma]
  cases readFields? (fuel + 1) rest <;> rfl

end

variable {fields : List (Text × Text)} {fuel : Nat}

/-- **Written fields are read back**, up to the end of their object and past it. -/
theorem readFields?_write (hne : fields ≠ []) (hfuel : fields.length < fuel) (rest : Text) :
    readFields? fuel (writeFields (stringFields fields) ++ 0x7D :: rest) =
      some (stringFields fields, rest) := by
  induction fields generalizing fuel with
  | nil => exact absurd rfl hne
  | cons f fs ih =>
    obtain ⟨fuel, rfl⟩ : ∃ n, fuel = n + 2 := ⟨fuel - 2, by simp at hfuel; omega⟩
    cases fs with
    | nil =>
      change readFields? (fuel + 2) (f.1.quoted ++ [0x3A] ++ f.2.quoted ++ 0x7D :: rest) = _
      rw [append_assoc, append_assoc, singleton_append, readFields?_last]
      rfl
    | cons g gs =>
      have hrest := ih (by simp) (show (g :: gs).length < fuel + 1 by simp at hfuel ⊢; omega)
      change readFields? (fuel + 2) (f.1.quoted ++ [0x3A] ++ f.2.quoted ++ [0x2C] ++
        writeFields (stringFields (g :: gs)) ++ 0x7D :: rest) = _
      rw [append_assoc, append_assoc, append_assoc, append_assoc,
        singleton_append, singleton_append, readFields?_more, hrest]
      rfl

theorem length_le_writeFields (fields : List (Text × Text)) :
    fields.length ≤ (writeFields (stringFields fields)).length := by
  induction fields with
  | nil => exact Nat.zero_le _
  | cons f fs ih =>
    cases fs with
    | nil => simp [stringFields, writeFields, Text.quoted]
    | cons g gs =>
      change (g :: gs).length + 1 ≤ (f.1.quoted ++ [0x3A] ++ f.2.quoted ++ [0x2C] ++
        writeFields (stringFields (g :: gs))).length
      rw [length_append, length_append, length_singleton]
      omega

theorem readValue?_object (hne : fields ≠ []) (hfuel : fields.length < fuel) :
    readValue? (fuel + 1) (write (.object (stringFields fields))) =
      some (.object (stringFields fields), []) := by
  obtain ⟨rest, hrest⟩ : ∃ rest, writeFields (stringFields fields) ++ [0x7D] = 0x22 :: rest := by
    match fields with
    | [f] | f :: g :: gs => exact ⟨_, rfl⟩
  have hskip := skipSpace_cons (show isSpace 0x22 = false by decide) rest
  have hfields := readFields?_write hne hfuel []
  rw [hrest] at hfields
  change readValue? (fuel + 1) (0x7B :: (writeFields (stringFields fields) ++ [0x7D])) = _
  rw [readValue?, skipSpace_cons (by decide)]
  dsimp only
  rw [if_neg (by decide), if_neg (by decide), if_pos (by decide), hrest, hskip]
  change Option.map _ (readFields? fuel (0x22 :: rest)) = _
  rw [hfields]
  rfl

theorem parse?_write (hne : fields ≠ []) :
    parse? (write (.object (stringFields fields))) = some (.object (stringFields fields)) := by
  have hlen : fields.length < 2 * (write (.object (stringFields fields))).length + 1 := by
    have hle := length_le_writeFields fields
    change _ < 2 * (0x7B :: (writeFields (stringFields fields) ++ [0x7D])).length + 1
    rw [length_cons, length_append]
    omega
  rw [parse?, readValue?_object hne hlen]
  rfl

theorem oneLine_write (fields : List (Text × Text)) :
    (write (.object (stringFields fields))).OneLine := by
  have hmark : ∀ u ∈ ([0x3A, 0x2C, 0x7B, 0x7D] : Text), Text.OneLine [u] := by decide
  have hfields : (writeFields (stringFields fields)).OneLine := by
    induction fields with
    | nil => exact ⟨Text.paired_nil, by simp [stringFields, writeFields]⟩
    | cons f fs ih =>
      have hfield : (f.1.quoted ++ [0x3A] ++ f.2.quoted).OneLine :=
        ((Text.oneLine_quoted f.1).append (hmark 0x3A (by decide))).append
          (Text.oneLine_quoted f.2)
      cases fs with
      | nil => exact hfield
      | cons g gs => exact (hfield.append (hmark 0x2C (by decide))).append ih
  exact ((hmark 0x7B (by decide)).append hfields).append (hmark 0x7D (by decide))

end Json

end Posonly
