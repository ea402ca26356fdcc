import Mathlib.Data.List.Induction
import Posonly.Archive.Manifest
import Posonly.Proofs.Json
import Posonly.Proofs.Text.Split
import Posonly.Proofs.Text.Stretch

/-!
# Manifests are read back

A manifest that was written entry by entry is read as these entries (`read_content`), and of the
entries of one file the earliest is the one that was written first (`mem_earliest`,
`earliest_eq_firsts`).
-/

open List

namespace Posonly

namespace ArchiveEntry

variable (e : ArchiveEntry)

theorem json_eq : e.json = .object (Json.stringFields
    [("original", e.file), ("archived", e.archived), ("storedAt", e.storedAt)]) := rfl

theorem ofJson?_json : ofJson? e.json = some e := by
  cases e
  rfl

theorem parse?_write_json : Json.parse? e.json.write = some e.json := by
  rw [json_eq]
  exact Json.parse?_write (by simp)

theorem oneLine_json : e.json.write.OneLine := by
  rw [json_eq]
  exact Json.oneLine_write _

/-- An entry is written in braces, so its line is not blank. -/
theorem trim_write_json : e.json.write.trim.isEmpty = false := by
  rw [isEmpty_eq_false_iff, Ne, Text.trim_eq_nil_iff]
  intro h
  cases h

end ArchiveEntry

namespace Manifest

/-- The bytes of a manifest that some entries have been put into. -/
def content (entries : List ArchiveEntry) : Bytes :=
  entries.flatMap fun e => Encoding.utf8.encode e.line

theorem content_append (entries : List ArchiveEntry) (e : ArchiveEntry) :
    content (entries ++ [e]) = content entries ++ Encoding.utf8.encode e.line := by
  rw [content, content, flatMap_append, flatMap_singleton]

theorem decode_content (entries : List ArchiveEntry) :
    Encoding.utf8.decode (content entries) = entries.flatMap fun e => e.line := by
  induction entries with
  | nil => rfl
  | cons e es ih =>
    have hline : e.line.Paired := e.oneLine_json.1.append (by decide)
    rw [content, flatMap_cons, Encoding.decode_encode_append hline, flatMap_cons, ← content, ih]

theorem entryLines_content (entries : List ArchiveEntry) :
    entryLines (entries.flatMap fun e => e.line) = entries.map fun e => e.json.write := by
  have hsplit : Text.splitOn Text.lineFeed (entries.flatMap fun e => e.line) =
      (entries.map fun e => e.json.write) ++ [[]] := by
    induction entries with
    | nil => rfl
    | cons e es ih =>
      have hbreak : (("\n" : String) : Text) = [Text.lineFeed] := rfl
      have hline : Text.lineFeed ∉ e.json.write := e.oneLine_json.2
      rw [flatMap_cons, ArchiveEntry.line, hbreak, append_assoc, singleton_append,
        Text.splitOn_append_cons, ih,
        Text.splitOn_of_notMem hline]
      rfl
  rw [entryLines, hsplit, filter_append, filter_eq_self.mpr]
  · exact append_nil _
  · intro line hline
    obtain ⟨e, _, rfl⟩ := mem_map.mp hline
    rw [e.trim_write_json]
    rfl

theorem readLines_write (number : Nat) (entries : List ArchiveEntry) :
    readLines number (entries.map fun e => e.json.write) = .ok entries := by
  induction entries generalizing number with
  | nil => rfl
  | cons e es ih =>
    rw [map_cons, readLines, e.parse?_write_json]
    dsimp only
    rw [e.ofJson?_json, ih]
    rfl

/-- **A manifest is read as the entries that were put into it.** -/
theorem read_content (entries : List ArchiveEntry) :
    read (Encoding.utf8.decode (content entries)) = .ok entries := by
  rw [read, decode_content, entryLines_content, readLines_write]

/-! ## Earliest entries -/

theorem earliest_append (entries : List ArchiveEntry) (e : ArchiveEntry) :
    earliest (entries ++ [e]) =
      if (earliest entries).any fun f => f.file == e.file then earliest entries
      else earliest entries ++ [e] := by
  rw [earliest, foldl_append]
  rfl

theorem any_earliest (entries : List ArchiveEntry) (file : Text) :
    ((earliest entries).any fun f => f.file == file) = entries.any fun f => f.file == file := by
  induction entries using List.reverseRecOn with
  | nil => rfl
  | append_singleton entries e ih =>
    rw [earliest_append, any_append, ← ih]
    split
    · rename_i hany
      by_cases hfile : e.file = file
      · rw [hfile] at hany
        rw [hany]
        rfl
      · simp [hfile]
    · rw [any_append]

/-- **The earliest entry of a file** is the first one that it has. -/
theorem mem_earliest {entries : List ArchiveEntry} {e : ArchiveEntry} :
    e ∈ earliest entries ↔ entries.find? (fun f => f.file == e.file) = some e := by
  induction entries using List.reverseRecOn with
  | nil => simp [earliest]
  | append_singleton entries f ih =>
    rw [earliest_append, any_earliest, find?_append]
    by_cases hold : ∃ g ∈ entries, g.file = f.file
    · -- an entry of the same file stands before, so nothing is added
      obtain ⟨g, hg, hfile⟩ := hold
      have hany : (entries.any fun h => h.file == f.file) = true :=
        any_eq_true.mpr ⟨g, hg, beq_iff_eq.mpr hfile⟩
      rw [if_pos hany, ih]
      cases hfind : entries.find? fun h => h.file == e.file with
      | some h => rfl
      | none =>
        have hne : f.file ≠ e.file := fun heq =>
          find?_eq_none.mp hfind g hg (beq_iff_eq.mpr (hfile.trans heq))
        simp [hne]
    · rw [if_neg (by simpa using hold), mem_append, ih, mem_singleton]
      cases hfind : entries.find? fun h => h.file == e.file with
      | some h =>
        have hne : e ≠ f := by
          rintro rfl
          have hfile := find?_some hfind
          exact hold ⟨h, mem_of_find?_eq_some hfind, beq_iff_eq.mp hfile⟩
        simp [hne]
      | none =>
        rw [Option.none_or, find?_singleton]
        constructor
        · rintro (h | rfl)
          · cases h
          · simp
        · intro h
          split at h
          · exact .inr (Option.some.inj h).symm
          · cases h

theorem earliest_sublist (entries : List ArchiveEntry) : (earliest entries).Sublist entries := by
  induction entries using List.reverseRecOn with
  | nil => exact .slnil
  | append_singleton entries e ih =>
    rw [earliest_append]
    split
    · exact ih.trans (sublist_append_left ..)
    · exact ih.append (List.Sublist.refl _)

theorem earliest_pairwise (entries : List ArchiveEntry) :
    (earliest entries).Pairwise fun e f => e.file ≠ f.file := by
  induction entries using List.reverseRecOn with
  | nil => exact .nil
  | append_singleton entries e ih =>
    rw [earliest_append]
    split
    · exact ih
    · rename_i hany
      refine pairwise_append.mpr ⟨ih, pairwise_singleton .., fun f hf g hg heq => ?_⟩
      rw [mem_singleton.mp hg] at heq
      exact hany (any_eq_true.mpr ⟨f, hf, beq_iff_eq.mpr heq⟩)

/-- The entries ahead of which there is none of the same file. -/
def firsts (entries : List ArchiveEntry) : List ArchiveEntry :=
  (entries.zipIdx.filter fun p => (entries.take p.2).all fun f => f.file != p.1.file).map (·.1)

theorem firsts_append (entries : List ArchiveEntry) (e : ArchiveEntry) : firsts (entries ++ [e]) =
      if entries.any fun f => f.file == e.file then firsts entries else firsts entries ++ [e] := by
  have hbefore : (entries.zipIdx.filter fun p =>
        ((entries ++ [e]).take p.2).all fun f => f.file != p.1.file) =
      entries.zipIdx.filter fun p => (entries.take p.2).all fun f => f.file != p.1.file := by
    refine filter_congr fun p hp => ?_
    have hlt : p.2 < 0 + entries.length := snd_lt_add_of_mem_zipIdx hp
    rw [take_append_of_le_length (by omega)]
  have hlast : ((entries ++ [e]).take (0 + entries.length)).all (fun f => f.file != e.file) =
      !entries.any fun f => f.file == e.file := by
    rw [Nat.zero_add, take_left, not_any_eq_all_not]
    rfl
  rw [firsts, zipIdx_append, filter_append, map_append, hbefore, ← firsts,
    zipIdx_singleton, filter_singleton]
  dsimp only
  rw [hlast]
  cases entries.any fun f => f.file == e.file
  · rfl
  · exact append_nil _

/-- **The earliest entries** are those ahead of which there is none of the same file. -/
theorem earliest_eq_firsts (entries : List ArchiveEntry) : earliest entries = firsts entries := by
  induction entries using List.reverseRecOn with
  | nil => rfl
  | append_singleton entries e ih => rw [earliest_append, any_earliest, firsts_append, ih]

end Manifest

end Posonly
