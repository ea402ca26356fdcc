import Posonly.Proofs.Archive.Recovery
import Posonly.Proofs.Files.Sources

/-!
# Manifests with a bad line

The entries of an archive are there exactly if every line of its manifest that is not blank records
one (`Records`). If all these lines are JSON texts, the first that records no entry is the one that
the error is about. The number in the error is not the one that the line has in the manifest,
though: the blank lines above it are not counted (`Archive.entries_located`).
-/

open List Option

namespace Posonly

/-! ## What a line records -/

namespace Json

variable {fields : List (Text × Json)} {name value : Text}

/-- A field of an object, with none of its name behind it. -/
def LastField (fields : List (Text × Json)) (name : Text) (j : Json) : Prop :=
  ∃ before after, fields = before ++ (name, j) :: after ∧ ∀ f ∈ after, f.1 ≠ name

theorem field?_eq_some_iff {j : Json} :
    (object fields).field? name = some j ↔ LastField fields name j := by
  unfold field?
  rw [map_eq_some_iff]
  constructor
  · rintro ⟨⟨found, j'⟩, hfind, rfl⟩
    obtain ⟨hname, after, before, hfields, hafter⟩ := find?_eq_some_iff_append.mp hfind
    obtain rfl : found = name := eq_of_beq hname
    refine ⟨before.reverse, after.reverse, ?_, fun f hf => ?_⟩
    · rw [← reverse_reverse fields, hfields]
      simp
    · simpa using hafter f (mem_reverse.mp hf)
  · rintro ⟨before, after, rfl, hafter⟩
    refine ⟨(name, j), find?_eq_some_iff_append.mpr ⟨beq_self_eq_true name, after.reverse,
      before.reverse, by simp, fun f hf => ?_⟩, rfl⟩
    simpa using hafter f (mem_reverse.mp hf)

theorem stringField_iff : ((object fields).field? name).bind string? = some value ↔
    LastField fields name (.string value) := by
  rw [bind_eq_some_iff, ← field?_eq_some_iff]
  constructor
  · rintro ⟨j, hfield, hstring⟩
    cases j with
    | string t => rw [hfield, Option.some.inj hstring]
    | _ => cases hstring
  · intro hfield
    exact ⟨_, hfield, rfl⟩

end Json

/-- A line is the JSON text of an object with the three strings of an entry. -/
def Records (line : Text) (e : ArchiveEntry) : Prop :=
  ∃ fields, Json.parse? line = some (.object fields) ∧
    Json.LastField fields "original" (.string e.file) ∧
    Json.LastField fields "archived" (.string e.archived) ∧
    Json.LastField fields "storedAt" (.string e.storedAt)

namespace Manifest

variable {line : Text} {ls above below : List Text} {e : ArchiveEntry} {es : List ArchiveEntry}
  {number : Nat} {bytes : Bytes}

theorem ofJson?_object {fields : List (Text × Json)} :
    ArchiveEntry.ofJson? (.object fields) = some e ↔
      Json.LastField fields "original" (.string e.file) ∧
      Json.LastField fields "archived" (.string e.archived) ∧
      Json.LastField fields "storedAt" (.string e.storedAt) := by
  rw [← Json.stringField_iff, ← Json.stringField_iff, ← Json.stringField_iff]
  obtain ⟨file, archived, storedAt⟩ := e
  unfold ArchiveEntry.ofJson?
  simp only [bind_eq_bind, ← bind_assoc]
  simp only [bind_eq_some_iff, Option.pure_def, Option.some.injEq, ArchiveEntry.mk.injEq]
  grind

theorem records_iff :
    Records line e ↔ ∃ j, Json.parse? line = some j ∧ ArchiveEntry.ofJson? j = some e := by
  constructor
  · rintro ⟨fields, hline, hfields⟩
    exact ⟨_, hline, ofJson?_object.mpr hfields⟩
  · rintro ⟨j, hline, hj⟩
    cases j with
    | object fields => exact ⟨fields, hline, ofJson?_object.mp hj⟩
    | _ => cases hj

/-! ## Line by line -/

theorem readLines_of_records (h : Records line e) :
    readLines number (line :: ls) = (e :: ·) <$> readLines (number + 1) ls := by
  obtain ⟨j, hline, hj⟩ := records_iff.mp h
  rw [readLines]
  simp only [hline, hj]
  cases readLines (number + 1) ls <;> rfl

theorem readLines_of_not_records (number : Nat) (ls : List Text) (hnone : ∀ e, ¬ Records line e) :
    readLines number (line :: ls) =
      .error (if (Json.parse? line).isSome then .malformed number else .notJson) := by
  rw [readLines]
  cases hline : Json.parse? line with
  | none => rfl
  | some j =>
    cases hentry : ArchiveEntry.ofJson? j with
    | some e => exact absurd (records_iff.mpr ⟨j, hline, hentry⟩) (hnone e)
    | none => simp only [hentry, isSome_some, if_true]

theorem readLines_eq_ok_iff : readLines number ls = .ok es ↔ Forall₂ Records ls es := by
  induction ls generalizing number es with
  | nil =>
    rw [forall₂_nil_left_iff]
    exact ⟨fun h => (Except.ok.inj h).symm, fun h => h ▸ rfl⟩
  | cons line ls ih =>
    rw [forall₂_cons_left_iff]
    constructor
    · intro h
      by_cases hline : ∃ e, Records line e
      · obtain ⟨e, he⟩ := hline
        rw [readLines_of_records he] at h
        cases hrest : readLines (number + 1) ls with
        | error fault =>
          rw [hrest] at h
          cases h
        | ok rest =>
          rw [hrest] at h
          exact ⟨e, rest, he, ih.mp hrest, (Except.ok.inj h).symm⟩
      · rw [readLines_of_not_records number ls (not_exists.mp hline)] at h
        cases h
    · rintro ⟨e, rest, he, hrest, rfl⟩
      rw [readLines_of_records he, ih.mpr hrest]
      rfl

/-- Every line above the first bad one counts. -/
theorem readLines_malformed (habove : ∀ l ∈ above, ∃ e, Records l e)
    (hjson : (Json.parse? line).isSome = true) (hnone : ∀ e, ¬ Records line e) :
    readLines number (above ++ line :: below) = .error (.malformed (number + above.length)) := by
  induction above generalizing number with
  | nil => rw [nil_append, readLines_of_not_records number below hnone, if_pos hjson]; rfl
  | cons first above ih =>
    obtain ⟨e, he⟩ := habove first mem_cons_self
    rw [cons_append, readLines_of_records he,
      ih fun l hl => habove l (.tail _ hl), length_cons, Nat.add_right_comm,
      Nat.add_assoc]
    rfl

/-! ## Whole manifests -/

/-- The lines of the manifest that some bytes encode, blank ones among them. -/
def lines (bytes : Bytes) : List Text := (Encoding.utf8.decode bytes).splitOn Text.lineFeed

theorem entryLines_decode (bytes : Bytes) :
    entryLines (Encoding.utf8.decode bytes) = (lines bytes).filter fun l => !l.isAllBlank := by
  unfold entryLines
  refine filter_congr fun l _ => congrArg (! ·) ?_
  rw [Bool.eq_iff_iff, List.isEmpty_iff, Text.trim_eq_nil_iff]

theorem exists_forall₂_records_iff :
    (∃ es, Forall₂ Records ls es) ↔ ∀ l ∈ ls, ∃ e, Records l e := by
  induction ls with
  | nil => simp
  | cons line ls ih =>
    rw [forall_mem_cons, ← ih]
    simp only [forall₂_cons_left_iff]
    constructor
    · rintro ⟨_, e, es, he, hes, rfl⟩
      exact ⟨⟨e, he⟩, es, hes⟩
    · rintro ⟨⟨e, he⟩, es, hes⟩
      exact ⟨_, e, es, he, hes, rfl⟩

/-- A line is not blank and records no entry. -/
def Faulty (line : Text) : Prop := line.isAllBlank = false ∧ ∀ e, ¬ Records line e

theorem not_faulty_iff : ¬ Faulty line ↔ (line.isAllBlank = false → ∃ e, Records line e) := by
  rw [Faulty, not_and, not_forall_not]

theorem exists_first_faulty (h : ∃ l ∈ ls, Faulty l) :
    ∃ above line below, ls = above ++ line :: below ∧ Faulty line ∧ ∀ l ∈ above, ¬ Faulty l := by
  classical
  obtain ⟨l, hl, hfaulty⟩ := h
  have hsome : (ls.find? fun l => Faulty l).isSome = true :=
    find?_isSome.mpr ⟨l, hl, decide_eq_true hfaulty⟩
  obtain ⟨line, hfind⟩ := isSome_iff_exists.mp hsome
  obtain ⟨hline, above, below, hls, habove⟩ := find?_eq_some_iff_append.mp hfind
  exact ⟨above, line, below, hls, of_decide_eq_true hline, fun l hl => by simpa using habove l hl⟩

/-- The number of the first bad line, with the blank lines above it left out. -/
theorem read_of_faulty (hsplit : lines bytes = above ++ line :: below) (hline : Faulty line)
    (hjson : (Json.parse? line).isSome = true) (habove : ∀ l ∈ above, ¬ Faulty l) :
    ∃ number, read (Encoding.utf8.decode bytes) = .error (.malformed number) ∧
      number + above.countP Text.isAllBlank = above.length + 1 := by
  refine ⟨1 + (above.filter fun l => !l.isAllBlank).length, ?_, ?_⟩
  · rw [read, entryLines_decode, hsplit, filter_append, filter_cons_of_pos (by rw [hline.1]; rfl)]
    refine readLines_malformed (fun l hl => ?_) hjson hline.2
    obtain ⟨hmem, hblank⟩ := mem_filter.mp hl
    exact not_faulty_iff.mp (habove l hmem) (by simpa using hblank)
  · have hlength := length_eq_countP_add_countP Text.isAllBlank (l := above)
    simp only [Bool.not_eq_true, ← Bool.not_eq_true', Bool.decide_eq_true] at hlength
    rw [← countP_eq_length_filter]
    omega

end Manifest

namespace Archive

variable {a : Archive} {p : Premises} {w : World} {bytes : Bytes}

theorem entries_run_eq_ok_iff {es : List ArchiveEntry} (hfaults : w.faults = [])
    (hread : w.tree.read p.directory a.manifest = .ok bytes) :
    StateT.run (a.entries p.host).run w = (.ok es, w) ↔
      Forall₂ Records ((Manifest.lines bytes).filter fun l => !l.isAllBlank) es := by
  rw [entries_run_of_read hfaults hread, ← Manifest.entryLines_decode,
    ← Manifest.readLines_eq_ok_iff, ← Manifest.read]
  cases Manifest.read (Encoding.utf8.decode bytes) with
  | ok es' => constructor <;> rintro ⟨⟩ <;> rfl
  | error fault => constructor <;> rintro ⟨⟩

/-- **What the entries of an archive are, and which line they fail at.** They are what the lines of
the manifest record, if every line that is not blank does. If these lines are JSON texts, the error
is about the first that records no entry, but the number that it gives counts no blank line. -/
theorem entries_located (hfaults : w.faults = [])
    (hread : w.tree.read p.directory a.manifest = .ok bytes) :
    ((∃ es, StateT.run (a.entries p.host).run w = (.ok es, w)) ↔
      ∀ l ∈ Manifest.lines bytes, l.isAllBlank = false → ∃ e, Records l e) ∧
    (∀ es, StateT.run (a.entries p.host).run w = (.ok es, w) ↔
      Forall₂ Records ((Manifest.lines bytes).filter fun l => !l.isAllBlank) es) ∧
    ((∀ l ∈ Manifest.lines bytes, l.isAllBlank = false → (Json.parse? l).isSome = true) →
      (∃ l ∈ Manifest.lines bytes, Manifest.Faulty l) →
      ∃ above line below error number, Manifest.lines bytes = above ++ line :: below ∧
        Manifest.Faulty line ∧ (∀ l ∈ above, ¬ Manifest.Faulty l) ∧
        StateT.run (a.entries p.host).run w = (.error error, w) ∧
        error.message = a.manifest ++ ":" ++ Text.ofNat number ++ ": malformed archive entry" ∧
        number + above.countP Text.isAllBlank = above.length + 1) := by
  refine ⟨?_, fun es => entries_run_eq_ok_iff hfaults hread, fun hjson hfaulty => ?_⟩
  · simp only [entries_run_eq_ok_iff hfaults hread, Manifest.exists_forall₂_records_iff,
      List.mem_filter, Bool.not_eq_true', and_imp]
  · obtain ⟨above, line, below, hsplit, hline, habove⟩ := Manifest.exists_first_faulty hfaulty
    obtain ⟨number, hnumber, hcount⟩ := Manifest.read_of_faulty hsplit hline
      (hjson line (by simp [hsplit]) hline.1) habove
    refine ⟨above, line, below, .manifest a.manifest (.malformed number), number, hsplit, hline,
      habove, ?_, rfl, hcount⟩
    rw [entries_run_of_read hfaults hread, hnumber]
    rfl

/-! ## A blank line above a bad one -/

/-- The line of an entry. -/
def soundLine : Text := (ArchiveEntry.json ⟨"/w/a.py", "a-0.py", "then"⟩).write

/-- An object without fields. -/
def bareLine : Text := "\x7b\x7d"

def gappedManifest : Bytes := Encoding.utf8.encode (soundLine ++ "\n\n" ++ bareLine ++ "\n")

def gapped : World where
  tree := ⟨[(["w"], .directory), (["w", "archive"], .directory),
    (["w", "archive", "manifest.jsonl"], .file gappedManifest)]⟩

theorem read_gapped :
    gapped.tree.read bench.directory (Archive.manifest ⟨"archive"⟩) = .ok gappedManifest := rfl

theorem lines_gapped : Manifest.lines gappedManifest = [soundLine, []] ++ bareLine :: [[]] := by
  decide

theorem faulty_bareLine : Manifest.Faulty bareLine := by
  refine ⟨by decide, fun e he => ?_⟩
  obtain ⟨j, hj, hentry⟩ := Manifest.records_iff.mp he
  cases hj
  cases hentry

theorem entries_located_gapped : gapped.faults = [] ∧
    gapped.tree.read bench.directory (Archive.manifest ⟨"archive"⟩) = .ok gappedManifest ∧
    ∃ above line below error number, Manifest.lines gappedManifest = above ++ line :: below ∧
      Manifest.Faulty line ∧ (∀ l ∈ above, ¬ Manifest.Faulty l) ∧
      StateT.run (entries ⟨"archive"⟩ bench.host).run gapped = (.error error, gapped) ∧
      error.message = Archive.manifest ⟨"archive"⟩ ++ ":" ++ Text.ofNat number ++
        ": malformed archive entry" ∧
      number + above.countP Text.isAllBlank = above.length + 1 := by
  have hjson : ∀ l ∈ Manifest.lines gappedManifest, l.isAllBlank = false →
      (Json.parse? l).isSome = true := by
    rw [lines_gapped]
    simp only [List.forall_mem_append, forall_mem_cons]
    exact ⟨⟨fun _ => by rw [soundLine, ArchiveEntry.parse?_write_json]; rfl,
      (fun h => by cases h), by simp⟩, fun _ => rfl, (fun h => by cases h), by simp⟩
  have hfaulty : ∃ l ∈ Manifest.lines gappedManifest, Manifest.Faulty l :=
    ⟨_, by rw [lines_gapped]; simp, faulty_bareLine⟩
  exact ⟨rfl, read_gapped, (entries_located rfl read_gapped).2.2 hjson hfaulty⟩

/-- **The third line is called the second**: the blank line above it is not counted. -/
theorem blank_line_not_counted :
    Manifest.lines gappedManifest = [soundLine, []] ++ bareLine :: [[]] ∧
    (∃ e, Records soundLine e) ∧ Manifest.Faulty bareLine ∧
    ∃ error, StateT.run (entries ⟨"archive"⟩ bench.host).run gapped = (.error error, gapped) ∧
      error.message = "archive/manifest.jsonl:2: malformed archive entry" := by
  have hsound : ∃ e, Records soundLine e := ⟨_, Manifest.records_iff.mpr
    ⟨_, ArchiveEntry.parse?_write_json _, ArchiveEntry.ofJson?_json _⟩⟩
  have habove : ∀ l ∈ [soundLine, []], ¬ Manifest.Faulty l := by
    simp only [forall_mem_cons, Manifest.not_faulty_iff]
    exact ⟨fun _ => hsound, (fun h => by cases h), by simp⟩
  obtain ⟨number, hread, hnumber⟩ :=
    Manifest.read_of_faulty lines_gapped faulty_bareLine rfl habove
  have hblank : [soundLine, []].countP Text.isAllBlank = 1 := by decide
  obtain rfl : number = 2 := by simpa [hblank] using hnumber
  refine ⟨lines_gapped, hsound, faulty_bareLine, .manifest (Archive.manifest ⟨"archive"⟩)
    (.malformed 2), ?_, by decide⟩
  rw [entries_run_of_read rfl read_gapped, hread]
  rfl

end Archive

end Posonly
