import IMoviesCA.Lib.Codes
import IMoviesCA.Text

/-!
# What an encoding keeps of a text

The servers hash a password after `Encoding.ASCII.GetBytes` or `Encoding.UTF8.GetBytes`, and store
the digest in hexadecimal digits.  The digits and UTF-8 keep the whole text.  ASCII writes every
other character as one or two `?`, and so a text is the only one with its bytes exactly when it is
`Plain`: ASCII characters other than `?`.
-/

namespace IMoviesCA

/-! ## Hexadecimal digits -/

theorem length_hexByte (b : UInt8) : (hexByte b).length = 2 := rfl

theorem hexDigit_inj : ∀ n < 16, ∀ m < 16,
    Char.ofNat (if n < 10 then 0x30 + n else 0x61 + (n - 10)) =
      Char.ofNat (if m < 10 then 0x30 + m else 0x61 + (m - 10)) → n = m := by decide

theorem hexByte_injective : Function.Injective hexByte := by
  intro b b' h
  have hb : b.toNat < 256 := b.toNat_lt
  have hb' : b'.toNat < 256 := b'.toNat_lt
  simp only [hexByte, List.cons.injEq, and_true] at h
  have hhigh := hexDigit_inj _ (by omega) _ (by omega) h.1
  have hlow := hexDigit_inj _ (by omega) _ (by omega) h.2
  apply UInt8.toNat_inj.1
  omega

theorem hexLower_injective : Function.Injective hexLower := by
  intro bs bs' h
  have hlist : bs.flatMap hexByte = bs'.flatMap hexByte := String.ofList_injective h
  exact Codes.flatMap_injective (fun b => by simp [hexByte])
    (Codes.separates_of_length length_hexByte hexByte_injective) hlist

/-- Both servers write the same digits. -/
theorem appendFormatX2_eq (bytes : List UInt8) : appendFormatX2 bytes = hexLower bytes := by
  have hfold : ∀ (bytes : List UInt8) (sb : String),
      bytes.foldl (fun sb b => sb ++ String.ofList (hexByte b)) sb = sb ++ hexLower bytes := by
    intro bytes
    induction bytes with
    | nil =>
      intro sb
      simp [hexLower]
    | cons b bytes ih =>
      intro sb
      rw [List.foldl_cons, ih]
      simp [hexLower, String.append_assoc]
  rw [appendFormatX2, hfold]
  simp

/-! ## UTF-8 -/

theorem utf8GetBytes_injective : Function.Injective utf8GetBytes := by
  intro s s' h
  have hbytes : s.toList.utf8Encode = s'.toList.utf8Encode := congrArg List.toByteArray h
  rw [String.utf8Encode_toList, String.utf8Encode_toList] at hbytes
  exact String.toByteArray_inj.1 hbytes

/-! ## ASCII -/

/-- The bytes of one character. -/
def asciiBytes (c : Char) : List UInt8 :=
  if c.toNat < 0x80 then [UInt8.ofNat c.toNat]
  else if c.toNat < 0x10000 then [0x3F] else [0x3F, 0x3F]

theorem asciiGetBytes_eq (s : String) : asciiGetBytes s = s.toList.flatMap asciiBytes := rfl

theorem length_asciiBytes (c : Char) :
    (asciiBytes c).length = if c.toNat < 0x10000 then 1 else 2 := by
  unfold asciiBytes
  split_ifs with hascii hbmp
  · rfl
  · omega
  · rfl
  · rfl

/-- One byte for each code unit. -/
theorem length_asciiGetBytes (s : String) : (asciiGetBytes s).length = netLength s := by
  rw [asciiGetBytes_eq, List.length_flatMap, netLength]
  simp only [length_asciiBytes]

theorem asciiBytes_ne_nil (c : Char) : asciiBytes c ≠ [] := by
  unfold asciiBytes
  split_ifs <;> simp

/-- ASCII characters other than `?`. -/
def Plain (s : String) : Prop := ∀ c ∈ s.toList, c.toNat < 0x80 ∧ c ≠ '?'

instance (s : String) : Decidable (Plain s) := List.decidableBAll _ _

theorem toNat_ofNat_ascii {c : Char} (h : c.toNat < 0x80) : (UInt8.ofNat c.toNat).toNat = c.toNat := by
  rw [UInt8.toNat_ofNat']
  omega

theorem separates_asciiBytes {c : Char} (h : c.toNat < 0x80 ∧ c ≠ '?') :
    Codes.Separates asciiBytes c := by
  intro c' hprefix
  have hword : asciiBytes c = [UInt8.ofNat c.toNat] := if_pos h.1
  -- Both words begin with the byte of `c`.
  have hhead : (asciiBytes c').head? = some (UInt8.ofNat c.toNat) := by
    rw [hword] at hprefix
    cases hw : asciiBytes c' with
    | nil => exact absurd hw (asciiBytes_ne_nil c')
    | cons b bs =>
      rw [hw] at hprefix
      rcases hprefix with hprefix | hprefix
      · obtain rfl := (List.cons_prefix_cons.1 hprefix).1
        rfl
      · obtain rfl := (List.cons_prefix_cons.1 hprefix).1
        rfl
  have hquestion : UInt8.ofNat c.toNat ≠ 0x3F := by
    intro heq
    apply h.2
    apply Char.toNat_inj.1
    rw [← toNat_ofNat_ascii h.1, heq]
    rfl
  by_cases hc' : c'.toNat < 0x80
  · rw [asciiBytes, if_pos hc'] at hhead
    have hbyte : UInt8.ofNat c'.toNat = UInt8.ofNat c.toNat := Option.some.inj hhead
    apply Char.toNat_inj.1
    rw [← toNat_ofNat_ascii h.1, ← toNat_ofNat_ascii hc', hbyte]
  · rw [asciiBytes, if_neg hc'] at hhead
    split_ifs at hhead
    · exact absurd (Option.some.inj hhead).symm hquestion
    · exact absurd (Option.some.inj hhead).symm hquestion

/-- A plain text is the only one with its ASCII bytes. -/
theorem eq_of_asciiGetBytes_eq {s s' : String} (h : Plain s)
    (heq : asciiGetBytes s = asciiGetBytes s') : s = s' := by
  apply String.toList_injective
  exact Codes.eq_of_flatMap_eq asciiBytes_ne_nil (fun c hc => separates_asciiBytes (h c hc)) heq

/-- The character or the characters that have the bytes of a character that is not plain. -/
def twin (c : Char) : List Char :=
  if c = '?' then ['ä'] else if c.toNat < 0x10000 then ['?'] else ['?', '?']

theorem flatMap_asciiBytes_twin {c : Char} (h : ¬ (c.toNat < 0x80 ∧ c ≠ '?')) :
    (twin c).flatMap asciiBytes = asciiBytes c := by
  unfold twin
  by_cases hq : c = '?'
  · subst hq
    decide
  · have hbig : ¬ c.toNat < 0x80 := fun hlt => h ⟨hlt, hq⟩
    rw [if_neg hq]
    unfold asciiBytes
    rw [if_neg hbig]
    split_ifs <;> decide

theorem twin_ne (c : Char) (h : ¬ (c.toNat < 0x80 ∧ c ≠ '?')) : twin c ≠ [c] := by
  unfold twin
  split_ifs with hq
  · subst hq
    decide
  · intro heq
    exact hq (List.cons.inj heq).1.symm
  · simp

/-- A text that is not plain shares its ASCII bytes with another one. -/
theorem exists_asciiGetBytes_eq {s : String} (h : ¬ Plain s) :
    ∃ s', s' ≠ s ∧ asciiGetBytes s' = asciiGetBytes s := by
  simp only [Plain, not_forall] at h
  obtain ⟨c, hc, hnot⟩ := h
  obtain ⟨before, after, hs⟩ := List.append_of_mem hc
  refine ⟨String.ofList (before ++ (twin c ++ after)), ?_, ?_⟩
  · rintro rfl
    rw [String.toList_ofList] at hs
    have htwin := List.append_cancel_left hs
    rw [← List.singleton_append] at htwin
    exact twin_ne c hnot (List.append_cancel_right htwin)
  · rw [asciiGetBytes_eq, asciiGetBytes_eq, String.toList_ofList, hs]
    simp only [List.flatMap_append, List.flatMap_cons, flatMap_asciiBytes_twin hnot]

/-! ## Both -/

/-- UTF-8 writes ASCII characters as ASCII does. -/
theorem utf8EncodeChar_of_lt {c : Char} (h : c.toNat < 0x80) :
    String.utf8EncodeChar c = asciiBytes c := by
  have hle : c.val.toNat ≤ 0x7F := Nat.le_of_lt_succ h
  rw [asciiBytes, if_pos h, String.utf8EncodeChar]
  exact if_pos hle

theorem utf8GetBytes_of_ascii {s : String} (h : ∀ c ∈ s.toList, c.toNat < 0x80) :
    utf8GetBytes s = asciiGetBytes s := by
  rw [asciiGetBytes_eq, utf8GetBytes]
  apply List.flatMap_congr
  intro c hc
  exact utf8EncodeChar_of_lt (h c hc)

theorem asciiGetBytes_lt (s : String) : ∀ b ∈ asciiGetBytes s, b.toNat < 0x80 := by
  intro b hb
  rw [asciiGetBytes_eq] at hb
  obtain ⟨c, -, hb⟩ := List.mem_flatMap.1 hb
  unfold asciiBytes at hb
  split_ifs at hb with h
  · obtain rfl := List.mem_singleton.1 hb
    rw [toNat_ofNat_ascii h]
    exact h
  · obtain rfl := List.mem_singleton.1 hb
    decide
  · obtain rfl : b = 0x3F := by simpa using hb
    decide

/-- The first byte of any other character has its top bit set. -/
theorem exists_utf8EncodeChar_ge {c : Char} (h : ¬ c.toNat < 0x80) :
    ∃ b ∈ String.utf8EncodeChar c, ¬ b.toNat < 0x80 := by
  have hgt : ¬ c.val.toNat ≤ 0x7F := fun hle => h (Nat.lt_succ_of_le hle)
  unfold String.utf8EncodeChar
  dsimp only
  rw [if_neg hgt]
  split_ifs
  · refine ⟨_, List.mem_cons_self, ?_⟩
    rw [UInt8.toNat_ofNat']
    omega
  · refine ⟨_, List.mem_cons_self, ?_⟩
    rw [UInt8.toNat_ofNat']
    omega
  · refine ⟨_, List.mem_cons_self, ?_⟩
    rw [UInt8.toNat_ofNat']
    omega

/-- The two encodings give the same bytes only for the same text, in ASCII. -/
theorem ascii_of_utf8GetBytes_eq {s s' : String} (h : utf8GetBytes s = asciiGetBytes s') :
    ∀ c ∈ s.toList, c.toNat < 0x80 := by
  intro c hc
  by_contra hge
  obtain ⟨b, hb, hbig⟩ := exists_utf8EncodeChar_ge hge
  have hmem : b ∈ utf8GetBytes s := List.mem_flatMap.2 ⟨c, hc, hb⟩
  rw [h] at hmem
  exact hbig (asciiGetBytes_lt s' b hmem)

end IMoviesCA
