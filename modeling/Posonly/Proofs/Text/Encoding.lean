import Mathlib.Data.List.Basic
import Posonly.Text.Encoding

/-!
# Text that survives its encoding

Text whose surrogates come in pairs is what UTF-8 can express, and it comes back from its bytes
unchanged, whatever bytes follow (`decode_encode_append`). Such text can be put together and cut at
any unit that is no surrogate (`paired_append_cons`).
-/

open List Bool

namespace Posonly.Text

/-- Every surrogate of a text has its partner. -/
def Paired (t : Text) : Prop := ∀ c ∈ t.codePoints, isSurrogateCode c = false

instance (t : Text) : Decidable t.Paired :=
  inferInstanceAs (Decidable (∀ c ∈ t.codePoints, isSurrogateCode c = false))

/-- A unit is half of a pair. -/
def isSurrogate (u : UInt16) : Bool := isHighSurrogate u || isLowSurrogate u

theorem isSurrogateCode_toNat (u : UInt16) : isSurrogateCode u.toNat = isSurrogate u := by
  rw [Bool.eq_iff_iff]
  simp only [isSurrogate, isSurrogateCode, isHighSurrogate, isLowSurrogate, or_eq_true,
    and_eq_true, decide_eq_true_eq, UInt16.le_iff_toNat_le, UInt16.reduceToNat]
  omega

variable {a b : Text}

/-- **Texts put together have the code points of both**, unless the halves of a pair meet. -/
theorem codePoints_append
    (h : ((a.getLast?).any isHighSurrogate && (b.head?).any isLowSurrogate) = false) :
    codePoints (a ++ b) = codePoints a ++ codePoints b := by
  fun_induction codePoints a with
  | case1 => rfl
  | case2 u =>
    cases b with
    | nil => rfl
    | cons v rest =>
      rw [singleton_append, codePoints, if_neg (by simpa using h)]
      rfl
  | case3 u v rest hpair ih =>
    rw [cons_append, cons_append, codePoints, if_pos hpair, ih ?_]
    · rfl
    · rw [getLast?_cons_cons, getLast?_cons] at h
      cases hlast : rest.getLast? with
      | none => rfl
      | some x => rwa [hlast] at h
  | case4 u v rest hpair ih =>
    rw [getLast?_cons_cons] at h
    rw [cons_append, cons_append, codePoints, if_neg hpair, ← cons_append, ih h]
    rfl

theorem codePoints_append_cons (a : Text) {u : UInt16} (hu : isSurrogate u = false) (b : Text) :
    codePoints (a ++ u :: b) = codePoints a ++ u.toNat :: codePoints b := by
  rw [isSurrogate, or_eq_false_iff] at hu
  rw [codePoints_append (by rw [head?_cons, Option.any_some, hu.2, Bool.and_false])]
  cases b with
  | nil => rfl
  | cons v rest => rw [codePoints, hu.1, Bool.false_and, if_neg (by simp)]

theorem paired_append_cons {u : UInt16} (hu : isSurrogate u = false) :
    Paired (a ++ u :: b) ↔ Paired a ∧ Paired b := by
  unfold Paired
  rw [codePoints_append_cons a hu]
  simp only [mem_append, mem_cons]
  constructor
  · exact fun h => ⟨fun c hc => h c (.inl hc), fun c hc => h c (.inr (.inr hc))⟩
  · rintro ⟨ha, hb⟩ c (hc | rfl | hc)
    · exact ha c hc
    · rw [isSurrogateCode_toNat, hu]
    · exact hb c hc

theorem paired_nil : Paired [] := by simp [Paired, codePoints]

theorem paired_of_forall {t : Text} (h : ∀ u ∈ t, isSurrogate u = false) : Paired t := by
  induction t with
  | nil => exact paired_nil
  | cons u rest ih =>
    rw [← nil_append (u :: rest), paired_append_cons (h u (by simp))]
    exact ⟨paired_nil, ih fun v hv => h v (.tail _ hv)⟩

theorem le_pairCode (u v : UInt16) : 0x10000 ≤ pairCode u v :=
  Nat.le_trans (Nat.le_add_right _ _) (Nat.le_add_right _ _)

theorem pairCode_eq {u v : UInt16} (hpair : (isHighSurrogate u && isLowSurrogate v) = true) :
    pairCode u v < 0x110000 ∧ 0xD800 + (pairCode u v - 0x10000) / 0x400 = u.toNat ∧
      0xDC00 + (pairCode u v - 0x10000) % 0x400 = v.toNat := by
  simp only [isHighSurrogate, isLowSurrogate, and_eq_true, decide_eq_true_eq,
    UInt16.le_iff_toNat_le, UInt16.reduceToNat] at hpair
  obtain ⟨⟨hu1, hu2⟩, hv1, hv2⟩ := hpair
  unfold pairCode
  generalize u.toNat = a at *
  generalize v.toNat = b at *
  omega

theorem paired_pair {u v : UInt16} {rest : Text}
    (hpair : (isHighSurrogate u && isLowSurrogate v) = true) (h : Paired rest) :
    Paired (u :: v :: rest) := by
  intro c hc
  rw [codePoints, if_pos hpair, mem_cons] at hc
  cases hc with
  | inl hc =>
    have hge : 0x10000 ≤ c := hc ▸ le_pairCode u v
    rw [isSurrogateCode, and_eq_false_iff, decide_eq_false_iff_not, decide_eq_false_iff_not]
    omega
  | inr hc => exact h c hc

theorem Paired.append (ha : Paired a) (hb : Paired b) : Paired (a ++ b) := by
  fun_induction codePoints a with
  | case1 => exact hb
  | case2 u =>
    have hu : isSurrogate u = false := by
      rw [← isSurrogateCode_toNat]
      exact ha _ (by simp [codePoints])
    rw [singleton_append, ← nil_append (u :: b), paired_append_cons hu]
    exact ⟨paired_nil, hb⟩
  | case3 u v rest hpair ih =>
    refine paired_pair hpair (ih fun c hc => ha c ?_)
    rw [codePoints, if_pos hpair]
    exact mem_cons_of_mem _ hc
  | case4 u v rest hpair ih =>
    have hcodes : codePoints (u :: v :: rest) = u.toNat :: codePoints (v :: rest) := by
      rw [codePoints, if_neg hpair]
    have hu : isSurrogate u = false := by
      rw [← isSurrogateCode_toNat]
      exact ha _ (by rw [hcodes]; exact mem_cons_self ..)
    rw [cons_append, ← nil_append (u :: _), paired_append_cons hu]
    exact ⟨paired_nil, ih fun c hc => ha c (by rw [hcodes]; exact mem_cons_of_mem _ hc)⟩

/-! ## Code points -/

theorem codePoints_lt (t : Text) : ∀ c ∈ t.codePoints, c < 0x110000 := by
  fun_induction codePoints t with
  | case1 => simp
  | case2 u =>
    intro c hc
    rw [mem_singleton.mp hc]
    have := u.toNat_lt
    omega
  | case3 u v rest hpair ih =>
    intro c hc
    rw [mem_cons] at hc
    cases hc with
    | inl hc =>
      have := (pairCode_eq hpair).1
      omega
    | inr hc => exact ih c hc
  | case4 u v rest _ ih =>
    intro c hc
    rcases mem_cons.mp hc with rfl | hc
    · have := u.toNat_lt
      omega
    · exact ih c hc

theorem flatMap_unitsOfCode (t : Text) : t.codePoints.flatMap Encoding.unitsOfCode = t := by
  have hone : ∀ u : UInt16, Encoding.unitsOfCode u.toNat = [u] := by
    intro u
    rw [Encoding.unitsOfCode, if_pos u.toNat_lt]
    simp
  fun_induction codePoints t with
  | case1 => rfl
  | case2 u => rw [flatMap_singleton, hone]
  | case3 u v rest hpair ih =>
    obtain ⟨_, hhigh, hlow⟩ := pairCode_eq hpair
    rw [flatMap_cons, ih, Encoding.unitsOfCode, if_neg (Nat.not_lt.mpr (le_pairCode u v)),
      hhigh, hlow]
    simp
  | case4 u v rest _ ih => rw [flatMap_cons, hone, ih]; rfl

end Posonly.Text

namespace Posonly.Encoding

/-! ## UTF-8 -/

theorem decodeUtf8_cons (s : Option Partial) (b : UInt8) (rest : Bytes) :
    decodeUtf8 s (b :: rest) = (step s b).1 ++ decodeUtf8 (step s b).2 rest := by
  cases s <;> rfl

theorem decodeUtf8_start {b : UInt8} {p : Partial}
    (h : startCode b = some (.inr p)) (rest : Bytes) :
    decodeUtf8 none (b :: rest) = decodeUtf8 (some p) rest := by
  rw [decodeUtf8_cons, step, stepFresh, h]
  rfl

section

variable {code : Nat} {low high b : UInt8} {missing : Nat}

theorem step_some (hlow : low.toNat ≤ b.toNat) (hhigh : b.toNat ≤ high.toNat) :
    step (some ⟨code, missing, low, high⟩) b =
      if missing ≤ 1 then (unitsOfCode (0x40 * code + (b.toNat - 0x80)), none)
      else ([], some ⟨0x40 * code + (b.toNat - 0x80), missing - 1, 0x80, 0xBF⟩) := by
  have hin : (low ≤ b && b ≤ high) = true := by
    simp only [and_eq_true, decide_eq_true_eq, UInt8.le_iff_toNat_le]
    exact ⟨hlow, hhigh⟩
  rw [step, if_pos hin]

theorem decodeUtf8_next (hlow : low.toNat ≤ b.toNat) (hhigh : b.toNat ≤ high.toNat)
    (rest : Bytes) : decodeUtf8 (some ⟨code, missing + 2, low, high⟩) (b :: rest) =
      decodeUtf8 (some ⟨0x40 * code + (b.toNat - 0x80), missing + 1, 0x80, 0xBF⟩) rest := by
  rw [decodeUtf8_cons, step_some hlow hhigh, if_neg (by omega)]
  rfl

theorem decodeUtf8_last (hlow : low.toNat ≤ b.toNat) (hhigh : b.toNat ≤ high.toNat) (rest : Bytes) :
    decodeUtf8 (some ⟨code, 1, low, high⟩) (b :: rest) =
      unitsOfCode (0x40 * code + (b.toNat - 0x80)) ++ decodeUtf8 none rest := by
  rw [decodeUtf8_cons, step_some hlow hhigh, if_pos (Nat.le_refl 1)]

end

variable {k : Nat}

theorem toNat_toUInt8 (hk : k < 0x100) : k.toUInt8.toNat = k := by simpa using hk

theorem toNat_tail (k : Nat) : (0x80 + k % 0x40).toUInt8.toNat = 0x80 + k % 0x40 ∧
    (0x80 : UInt8).toNat ≤ (0x80 + k % 0x40).toUInt8.toNat ∧
    (0x80 + k % 0x40).toUInt8.toNat ≤ (0xBF : UInt8).toNat := by
  have htail := toNat_toUInt8 (k := 0x80 + k % 0x40) (by omega)
  refine ⟨htail, ?_, ?_⟩
  · change 0x80 ≤ _
    omega
  · change _ ≤ 0xBF
    omega

theorem startCode_two (hlow : 2 ≤ k) (hhigh : k < 0x20) :
    startCode (0xC0 + k).toUInt8 = some (.inr ⟨k, 1, 0x80, 0xBF⟩) := by
  unfold startCode
  dsimp only
  rw [toNat_toUInt8 (by omega), if_neg (by omega), if_neg (by omega), if_pos (by omega),
    Nat.add_sub_cancel_left]

/-- The second byte is bounded more tightly behind two of the first bytes. -/
theorem startCode_three (h : k < 0x10) :
    startCode (0xE0 + k).toUInt8 = some (.inr ⟨k, 2, if 0xE0 + k = 0xE0 then 0xA0 else 0x80,
      if 0xE0 + k = 0xED then 0x9F else 0xBF⟩) := by
  unfold startCode
  dsimp only
  rw [toNat_toUInt8 (by omega), if_neg (by omega), if_neg (by omega), if_neg (by omega),
    if_pos (by omega), Nat.add_sub_cancel_left]

theorem startCode_four (h : k < 5) :
    startCode (0xF0 + k).toUInt8 = some (.inr ⟨k, 3, if 0xF0 + k = 0xF0 then 0x90 else 0x80,
      if 0xF0 + k = 0xF4 then 0x8F else 0xBF⟩) := by
  unfold startCode
  dsimp only
  rw [toNat_toUInt8 (by omega), if_neg (by omega), if_neg (by omega), if_neg (by omega),
    if_neg (by omega), if_pos (by omega), Nat.add_sub_cancel_left]

/-- **The bytes of a code point stand for its units**, whatever bytes follow. -/
theorem decodeUtf8_encodeCode {n : Nat} (hn : n < 0x110000) (hs : Text.isSurrogateCode n = false)
    (rest : Bytes) :
    decodeUtf8 none (encodeCode n ++ rest) = unitsOfCode n ++ decodeUtf8 none rest := by
  have hself : (if Text.isSurrogateCode n = true then replacement else n) = n := by
    rw [hs]
    rfl
  rw [Text.isSurrogateCode, and_eq_false_iff, decide_eq_false_iff_not,
    decide_eq_false_iff_not] at hs
  unfold encodeCode
  dsimp only
  rw [hself]
  obtain ⟨ht0, hlow0, hhigh0⟩ := toNat_tail n
  obtain ⟨ht1, hlow1, hhigh1⟩ := toNat_tail (n / 0x40)
  obtain ⟨ht2, hlow2, hhigh2⟩ := toNat_tail (n / 0x1000)
  by_cases h1 : n < 0x80
  · rw [if_pos h1, singleton_append, decodeUtf8_cons, step, stepFresh, startCode]
    dsimp only
    rw [toNat_toUInt8 (by omega), if_pos h1]
  rw [if_neg h1]
  by_cases h2 : n < 0x800
  · rw [if_pos h2, cons_append, singleton_append,
      decodeUtf8_start (startCode_two (by omega) (by omega)), decodeUtf8_last hlow0 hhigh0, ht0,
      show 0x40 * (n / 0x40) + (0x80 + n % 0x40 - 0x80) = n by omega]
  rw [if_neg h2]
  by_cases h3 : n < 0x10000
  · rw [if_pos h3, cons_append, cons_append, singleton_append,
      decodeUtf8_start (startCode_three (by omega)), decodeUtf8_next,
      decodeUtf8_last hlow0 hhigh0, ht0, ht1,
      show 0x40 * (0x40 * (n / 0x1000) + (0x80 + n / 0x40 % 0x40 - 0x80)) +
        (0x80 + n % 0x40 - 0x80) = n by omega]
    · -- behind 0xE0 the second byte bars overlong forms
      split
      · change 0xA0 ≤ _
        omega
      · exact hlow1
    · -- behind 0xED it bars surrogates, which `n` is none of
      split
      · change _ ≤ 0x9F
        omega
      · exact hhigh1
  · rw [if_neg h3, cons_append, cons_append, cons_append, singleton_append,
      decodeUtf8_start (startCode_four (by omega)), decodeUtf8_next, decodeUtf8_next hlow1 hhigh1,
      decodeUtf8_last hlow0 hhigh0, ht0, ht1, ht2,
      show 0x40 * (0x40 * (0x40 * (n / 0x40000) + (0x80 + n / 0x1000 % 0x40 - 0x80)) +
        (0x80 + n / 0x40 % 0x40 - 0x80)) + (0x80 + n % 0x40 - 0x80) = n by omega]
    · -- behind 0xF0 the second byte bars overlong forms
      split
      · change 0x90 ≤ _
        omega
      · exact hlow2
    · -- behind 0xF4 it bars what is beyond the last code point
      split
      · change _ ≤ 0x8F
        omega
      · exact hhigh2

theorem decode_encode_append {t : Text} (h : t.Paired) (bytes : Bytes) :
    utf8.decode (utf8.encode t ++ bytes) = t ++ utf8.decode bytes := by
  have hcodes : ∀ cs : List Nat, (∀ c ∈ cs, c < 0x110000 ∧ Text.isSurrogateCode c = false) →
      decodeUtf8 none (cs.flatMap encodeCode ++ bytes) =
        cs.flatMap unitsOfCode ++ decodeUtf8 none bytes := by
    intro cs hcs
    induction cs with
    | nil => rfl
    | cons c cs ih =>
      rw [flatMap_cons, append_assoc, decodeUtf8_encodeCode (hcs c (by simp)).1 (hcs c (by simp)).2,
        ih fun d hd => hcs d (.tail _ hd), flatMap_cons, append_assoc]
  have hdec := hcodes t.codePoints fun c hc => ⟨t.codePoints_lt c hc, h c hc⟩
  rwa [Text.flatMap_unitsOfCode] at hdec

theorem decode_encode {t : Text} (h : t.Paired) : utf8.decode (utf8.encode t) = t := by
  have := decode_encode_append h []
  rwa [append_nil, show utf8.decode [] = [] from rfl, append_nil] at this

end Posonly.Encoding
