import Posonly.Decorator
import Posonly.Proofs.Text.Encoding

/-!
# Reading a call of the decorator back

A call names the parameters that it checks, each between quotes and with a comma and a space from
one to the next. `readNames` takes such a call apart again. Names that are identifiers have no comma
in them, so what is read is what was written (`readNames_call`). Where in the call a single name
stands is said by `call_eq`.
-/

open List Posonly.Text

namespace Posonly

namespace Text

/-- The parts of a text between which two given units stand in a row. -/
def splitOnPair (a b : UInt16) : Text → List Text
  | [] => [[]]
  | [u] => [[u]]
  | u :: v :: rest =>
    if u == a && v == b then [] :: splitOnPair a b rest
    else match splitOnPair a b (v :: rest) with
      | [] => [[u]]
      | t :: ts => (u :: t) :: ts

variable {a b u : UInt16} {s t : Text} {ts : List Text}

theorem splitOnPair_cons (hu : u ≠ a) (h : splitOnPair a b t = s :: ts) :
    splitOnPair a b (u :: t) = (u :: s) :: ts := by
  cases t with
  | nil =>
    injection h with hs hts
    rw [← hs, ← hts]
    rfl
  | cons v rest => rw [splitOnPair, if_neg (by simp [hu]), h]

theorem splitOnPair_append (h : a ∉ t) (rest : Text) :
    splitOnPair a b (t ++ a :: b :: rest) = t :: splitOnPair a b rest := by
  induction t with
  | nil => rw [nil_append, splitOnPair, if_pos (by simp)]
  | cons u t ih =>
    rw [mem_cons, not_or] at h
    exact splitOnPair_cons (Ne.symm h.1) (ih h.2)

theorem splitOnPair_of_notMem (h : a ∉ t) : splitOnPair a b t = [t] := by
  induction t with
  | nil => rfl
  | cons u t ih =>
    rw [mem_cons, not_or] at h
    exact splitOnPair_cons (Ne.symm h.1) (ih h.2)

theorem splitOnPair_joined (h : ∀ t ∈ ts, a ∉ t) (hne : ts ≠ []) :
    splitOnPair a b (joined [a, b] ts) = ts := by
  induction ts with
  | nil => exact absurd rfl hne
  | cons t ts ih =>
    have ht := h t (.head _)
    cases ts with
    | nil => exact splitOnPair_of_notMem ht
    | cons s ts =>
      change splitOnPair a b (t ++ [a, b] ++ joined [a, b] (s :: ts)) = _
      rw [append_assoc]
      refine (splitOnPair_append ht _).trans (congrArg (t :: ·) ?_)
      exact ih (fun x hx => h x (.tail _ hx)) (by simp)

theorem joined_append (separator t : Text) (ts us : List Text) : joined separator (ts ++ t :: us) =
      ts.flatMap (· ++ separator) ++ joined separator (t :: us) := by
  induction ts with
  | nil => rfl
  | cons s ts ih =>
    have hcons : joined separator (s :: (ts ++ t :: us)) =
        s ++ separator ++ joined separator (ts ++ t :: us) := by
      cases ts <;> rfl
    rw [cons_append, hcons, ih, flatMap_cons]
    simp only [append_assoc]

theorem notMem_of_isIdentifier (h : t.isIdentifier = true) {u : UInt16} (hu : isSurrogate u = false)
    (hstop : continuesIdentifier u.toNat = false) : u ∉ t := by
  intro hmem
  obtain ⟨x, y, rfl⟩ := append_of_mem hmem
  have hcodes : u.toNat ∈ codePoints (x ++ u :: y) := by
    rw [codePoints_append_cons x hu y]
    exact mem_append_right _ (.head _)
  unfold isIdentifier at h
  split at h
  · rename_i hnil
    rw [hnil] at hcodes
    cases hcodes
  · rename_i first rest hcons
    rw [Bool.and_eq_true] at h
    rw [hcons] at hcodes
    rcases mem_cons.mp hcodes with rfl | hrest
    · rw [continuesIdentifier, Bool.or_right_comm, ← startsIdentifier, h.1] at hstop
      cases hstop
    · rw [all_eq_true.mp h.2 _ hrest] at hstop
      cases hstop

theorem comma_notMem_of_isIdentifier (h : t.isIdentifier = true) : (0x2C : UInt16) ∉ t :=
  notMem_of_isIdentifier h (by decide) (by decide)

end Text

namespace Decorator

/-! ## Calls -/

/-- A text without the quotes around it, if it has quotes around it. -/
def unquote? : Text → Option Text
  | [] => none
  | u :: rest =>
    if (QuoteMark.ofUnit? u).isSome && rest.getLast? == some u then some rest.dropLast else none

/-- The names that a call of a decorator is made with. -/
def readNames (decorator call : Text) : Option (List Text) :=
  if startsWith call (decorator ++ "(") && endsWith call ")" then
    (splitOnPair 0x2C 0x20 (call.drop (decorator.length + 1)).dropLast).mapM unquote?
  else none

theorem unquote?_quoteName (name : Text) (q : QuoteMark) :
    unquote? (quoteName name q) = some name := by
  have hquote : (QuoteMark.ofUnit? q.unit).isSome = true := by cases q <;> rfl
  change unquote? (q.unit :: (name ++ [q.unit])) = some name
  rw [unquote?, hquote, getLast?_concat, dropLast_concat]
  simp

/-- **A call is read back** as the names that it was made with. -/
theorem readNames_call (decorator : Text) {names : List Text} (q : QuoteMark)
    (h : ∀ name ∈ names, (0x2C : UInt16) ∉ name) (hne : names ≠ []) :
    readNames decorator (call decorator names q) = some names := by
  -- a quoted name has no comma either, so the names are told apart again
  have hitems : ∀ item ∈ names.map (quoteName · q), (0x2C : UInt16) ∉ item := by
    intro item hitem hmem
    obtain ⟨name, hname, rfl⟩ := mem_map.mp hitem
    rcases mem_append.mp hmem with hmem | hmem
    · rcases mem_append.mp hmem with hmem | hmem
      · revert hmem
        cases q <;> decide
      · exact h name hname hmem
    · revert hmem
      cases q <;> decide
  have hcall : call decorator names q =
      (decorator ++ "(") ++ (joined ", " (names.map (quoteName · q)) ++ ")") := by
    rw [call, append_assoc]
  have hstart : startsWith (call decorator names q) (decorator ++ "(") = true := by
    rw [startsWith, isPrefixOf_iff_prefix, hcall]
    exact prefix_append ..
  have hend : endsWith (call decorator names q) ")" = true := by
    rw [endsWith, isSuffixOf_iff_suffix, call]
    exact suffix_append ..
  have hinner : (List.drop (decorator.length + 1) (call decorator names q)).dropLast =
      joined [0x2C, 0x20] (names.map (quoteName · q)) := by
    rw [hcall, drop_left' (by rw [length_append]; rfl)]
    exact dropLast_concat
  have hunquote : ∀ ns : List Text, (ns.map (quoteName · q)).mapM unquote? = some ns := by
    intro ns
    induction ns with
    | nil => rfl
    | cons name ns ih =>
      rw [map_cons, mapM_cons, unquote?_quoteName, ih]
      rfl
  rw [readNames, if_pos (by rw [hstart, hend]; rfl), hinner,
    splitOnPair_joined hitems (by simpa using hne), hunquote]

/-! ## Names in calls -/

/-- The text of a call as far as the name that comes next behind some others. -/
def callAhead (decorator : Text) (names : List Text) (q : QuoteMark) : Text :=
  decorator ++ "(" ++ (names.map (quoteName · q)).flatMap (· ++ (", " : Text))

/-- **A name in a call** has the others around it, and a comma or a bracket right behind it. -/
theorem call_eq (decorator name : Text) (pre post : List Text) (q : QuoteMark) :
    ∃ u behind, u ≠ q.unit ∧ call decorator (pre ++ name :: post) q =
      callAhead decorator pre q ++ quoteName name q ++ u :: behind := by
  rw [call, callAhead, map_append, map_cons, joined_append]
  cases post with
  | nil =>
    refine ⟨0x29, [], by cases q <;> decide, ?_⟩
    simp only [append_assoc]
    rfl
  | cons next post =>
    refine ⟨0x2C, 0x20 :: (joined ", " ((next :: post).map (quoteName · q)) ++ ")"),
      by cases q <;> decide, ?_⟩
    rw [map_cons, joined]
    · simp only [append_assoc]
      rfl
    · simp

end Decorator

end Posonly
