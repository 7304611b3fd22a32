import Nslc.Common.Scales
/-!
# UTF-16 columns

An editor counts a line in UTF-16 units, the server in bytes. A line of
bytes falls into sequences, each as long as its first byte says; one the
line cuts off counts as a single byte. The sequences are items with a
size on both scales, and the two conversions read from one scale off on
the other, as long as the units of the line fit in a `UInt32`.
-/

namespace Nslc

namespace LSP

/-- The bytes of a sequence and its UTF-16 units. -/
structure SequenceLen where
  bytes : ℕ
  units : UInt32
  bytes_pos : 0 < bytes
  units_eq : units = 1 ∨ units = 2
  deriving DecidableEq

/-- `utf8SequenceLen`: by the first byte. -/
def utf8SequenceLen (b : UInt8) : SequenceLen :=
  if b < 0x80 then ⟨1, 1, by decide, .inl rfl⟩
  else if b &&& 0xE0 = 0xC0 then ⟨2, 1, by decide, .inl rfl⟩
  else if b &&& 0xF0 = 0xE0 then ⟨3, 1, by decide, .inl rfl⟩
  else if b &&& 0xF8 = 0xF0 then ⟨4, 2, by decide, .inr rfl⟩
  else ⟨1, 1, by decide, .inl rfl⟩

/-- One byte, one unit. -/
def singleByte : SequenceLen := ⟨1, 1, by decide, .inl rfl⟩

/-- The loop of `byteToUtf16Column`. -/
def columnLoop (text : List UInt8) (byteOffset : ℕ) (utf16 : UInt32) (i : ℕ) : UInt32 :=
  if i < byteOffset then
    match text[i]? with
    | none => utf16
    | some b =>
      let s := if i + (utf8SequenceLen b).bytes > text.length then singleByte
        else utf8SequenceLen b
      -- Partial mid-sequence: round down.
      if i + s.bytes > byteOffset then utf16
      else columnLoop text byteOffset (utf16 + s.units) (i + s.bytes)
  else utf16
termination_by byteOffset - i
decreasing_by
  exact Nat.sub_lt_sub_left ‹_› (Nat.lt_add_of_pos_right (SequenceLen.bytes_pos _))

/-- `byteToUtf16Column`. -/
def byteToUtf16Column (text : List UInt8) (byteOffset : ℕ) : UInt32 :=
  columnLoop text (if byteOffset ≥ text.length then text.length else byteOffset) 0 0

/-- The loop of `utf16ToByteOffset`. -/
def offsetLoop (text : List UInt8) (character : UInt32) (utf16 : UInt32) (i : ℕ) : ℕ :=
  if hi : i < text.length ∧ utf16 < character then
    let b := text[i]
    let s := if i + (utf8SequenceLen b).bytes > text.length then singleByte
      else utf8SequenceLen b
    -- Inside a surrogate pair: stay in front of it.
    if utf16 + s.units > character then i
    else offsetLoop text character (utf16 + s.units) (i + s.bytes)
  else i
termination_by text.length - i
decreasing_by
  exact Nat.sub_lt_sub_left hi.1 (Nat.lt_add_of_pos_right (SequenceLen.bytes_pos _))

/-- `utf16ToByteOffset`. -/
def utf16ToByteOffset (text : List UInt8) (character : UInt32) : ℕ :=
  offsetLoop text character 0 0

/-! ## Sequences -/

/-- The sequence at the front of a line. -/
def frontSequence (b : UInt8) (rest : List UInt8) : SequenceLen :=
  if (utf8SequenceLen b).bytes > rest.length + 1 then singleByte else utf8SequenceLen b

/-- A line as `utf8SequenceLen` cuts it. -/
def sequences : List UInt8 → List SequenceLen
  | [] => []
  | b :: rest =>
    frontSequence b rest :: sequences ((b :: rest).drop (frontSequence b rest).bytes)
termination_by text => text.length
decreasing_by
  have := (frontSequence b rest).bytes_pos
  simp only [List.length_drop, List.length_cons]
  omega

/-- The UTF-16 units of a sequence, as a number. -/
def SequenceLen.unitCount (s : SequenceLen) : ℕ := s.units.toNat

/-- The UTF-16 units of a line. -/
def unitsOf (text : List UInt8) : ℕ := Scales.extent SequenceLen.unitCount (sequences text)

/-- An offset between two sequences of a line, or at one of its ends. -/
def Boundary (text : List UInt8) (b : ℕ) : Prop :=
  ∃ p, p <+: sequences text ∧ b = Scales.extent SequenceLen.bytes p

/-- A column between the two units of a pair. -/
def InsidePair (text : List UInt8) (u : ℕ) : Prop :=
  ∃ p s, p ++ [s] <+: sequences text ∧ s.units = 2 ∧
    u = Scales.extent SequenceLen.unitCount p + 1

/-- The UTF-8 bytes of a text. -/
def utf8Encode (cs : List Char) : List UInt8 := cs.flatMap String.utf8EncodeChar

/-- The UTF-16 code units of a character. -/
def utf16Size (c : Char) : ℕ := if c.toNat < 0x10000 then 1 else 2

/-- **The conversions are faithful on a line.** -/
structure Faithful (text : List UInt8) : Prop where
  roundTrip : ∀ b, Boundary text b → utf16ToByteOffset text (byteToUtf16Column text b) = b
  columnMono : ∀ b b', b ≤ b' → byteToUtf16Column text b ≤ byteToUtf16Column text b'
  offsetMono : ∀ u u', u ≤ u' → utf16ToByteOffset text u ≤ utf16ToByteOffset text u'
  columnInLine : ∀ b, (byteToUtf16Column text b).toNat ≤ unitsOf text
  offsetInLine : ∀ u, utf16ToByteOffset text u ≤ text.length
  /-- On UTF-8 the column counts the units of the characters in front,
  from any byte of the next one. -/
  countsUnits : ∀ cs rest, utf8Encode (cs ++ rest) = text →
    (byteToUtf16Column text (utf8Encode cs).length).toNat = (cs.map utf16Size).sum ∧
      ∀ c ∈ rest.head?, ∀ k < c.utf8Size,
        (byteToUtf16Column text ((utf8Encode cs).length + k)).toNat = (cs.map utf16Size).sum
  roundDown : ∀ u, byteToUtf16Column text (utf16ToByteOffset text u) ≤ u ∧
    (byteToUtf16Column text (utf16ToByteOffset text u) = u ↔
      ¬ (unitsOf text < u.toNat ∨ InsidePair text u.toNat))

/-! ## The loops -/

theorem SequenceLen.unitCount_eq (s : SequenceLen) : s.unitCount = 1 ∨ s.unitCount = 2 := by
  obtain h | h := s.units_eq
  · exact .inl (by rw [unitCount, h]; rfl)
  · exact .inr (by rw [unitCount, h]; rfl)

theorem SequenceLen.unitCount_pos (s : SequenceLen) : 0 < s.unitCount := by
  obtain h | h := s.unitCount_eq <;> omega

theorem frontSequence_bytes_le (b : UInt8) (rest : List UInt8) :
    (frontSequence b rest).bytes ≤ rest.length + 1 := by
  rw [frontSequence]
  split
  · exact Nat.le_add_left 1 _
  · omega

theorem sequences_cons (b : UInt8) (rest : List UInt8) :
    sequences (b :: rest) =
      frontSequence b rest :: sequences ((b :: rest).drop (frontSequence b rest).bytes) := by
  rw [sequences]

theorem extent_bytes_sequences (text : List UInt8) :
    Scales.extent SequenceLen.bytes (sequences text) = text.length := by
  induction text using sequences.induct with
  | case1 => rw [sequences]; rfl
  | case2 b rest ih =>
    have := frontSequence_bytes_le b rest
    rw [sequences_cons, Scales.extent_cons, ih, List.length_drop, List.length_cons]
    omega

/-- Where the loops stand, the rest of the line is what is to be cut. -/
theorem drop_eq_cons {text : List UInt8} {i : ℕ} {b : UInt8} (h : text[i]? = some b) :
    ∃ rest, text.drop i = b :: rest ∧ text.length = i + (rest.length + 1) ∧
      (if i + (utf8SequenceLen b).bytes > text.length then singleByte
        else utf8SequenceLen b) = frontSequence b rest := by
  obtain ⟨hi, rfl⟩ := List.getElem?_eq_some_iff.1 h
  refine ⟨text.drop (i + 1), List.drop_eq_getElem_cons hi, ?_, ?_⟩
  · rw [List.length_drop]
    omega
  · rw [frontSequence, List.length_drop]
    congr 1
    apply propext
    omega

theorem sequences_drop {text : List UInt8} {i : ℕ} {b : UInt8} {rest : List UInt8}
    (h : text.drop i = b :: rest) :
    sequences (text.drop i) =
      frontSequence b rest :: sequences (text.drop (i + (frontSequence b rest).bytes)) := by
  rw [h, sequences_cons, ← h, List.drop_drop]

/-- **The loop over the bytes adds up the units of what fits.** -/
theorem columnLoop_eq (text : List UInt8) (byteOffset : ℕ) (utf16 : UInt32) (i : ℕ) :
    columnLoop text byteOffset utf16 i = utf16 + UInt32.ofNat
      (Scales.across SequenceLen.bytes SequenceLen.unitCount (byteOffset - i)
        (sequences (text.drop i))) := by
  fun_induction columnLoop text byteOffset utf16 i with
  | case1 utf16 i hi hnone =>
    have hle : text.length ≤ i := List.getElem?_eq_none_iff.1 hnone
    rw [List.drop_of_length_le hle, sequences]
    simp [Scales.across, Scales.within]
  | case2 utf16 i hi b hb s hgt =>
    obtain ⟨rest, hrest, -, hs⟩ := drop_eq_cons hb
    have hs' : s = frontSequence b rest := hs
    have hbytes : ¬ (frontSequence b rest).bytes ≤ byteOffset - i := by
      rw [← hs']
      omega
    rw [sequences_drop hrest, Scales.across, Scales.within, if_neg hbytes]
    simp
  | case3 utf16 i hi b hb s hle ih =>
    obtain ⟨rest, hrest, -, hs⟩ := drop_eq_cons hb
    have hs' : s = frontSequence b rest := hs
    have hbytes : (frontSequence b rest).bytes ≤ byteOffset - i := by
      rw [← hs']
      omega
    rw [ih, sequences_drop hrest, Scales.across, Scales.across, Scales.within, if_pos hbytes,
      Scales.extent_cons, hs', UInt32.ofNat_add, SequenceLen.unitCount, UInt32.ofNat_toNat,
      UInt32.add_assoc, Nat.sub_sub]
  | case4 utf16 i hi =>
    have hzero : byteOffset - i = 0 := by omega
    rw [hzero, Scales.across]
    have hnil : Scales.within SequenceLen.bytes 0 (sequences (text.drop i)) = [] :=
      Scales.within_extent SequenceLen.bytes_pos List.nil_prefix
    rw [hnil]
    simp


theorem toNat_add_units {utf16 : UInt32} {s : SequenceLen}
    (h : utf16.toNat + s.unitCount < UInt32.size) :
    (utf16 + s.units).toNat = utf16.toNat + s.unitCount := by
  rw [UInt32.toNat_add]
  exact Nat.mod_eq_of_lt h

/-- **The loop over the units adds up the bytes of what fits**, if the
units of the line fit in a `UInt32`. -/
theorem offsetLoop_eq (text : List UInt8) (character utf16 : UInt32) (i : ℕ)
    (hle : utf16 ≤ character) (hfit : utf16.toNat +
      Scales.extent SequenceLen.unitCount (sequences (text.drop i)) < UInt32.size) :
    offsetLoop text character utf16 i = i +
      Scales.across SequenceLen.unitCount SequenceLen.bytes (character.toNat - utf16.toNat)
        (sequences (text.drop i)) := by
  fun_induction offsetLoop text character utf16 i with
  | case1 utf16 i hi b s hgt =>
    obtain ⟨rest, hrest, -, hs⟩ := drop_eq_cons (List.getElem?_eq_getElem hi.1)
    have hs' : s = frontSequence b rest := hs
    rw [sequences_drop hrest, Scales.extent_cons, ← hs'] at hfit
    have hsum : (utf16 + s.units).toNat = utf16.toNat + s.unitCount :=
      toNat_add_units (by omega)
    have hgt' : character.toNat < utf16.toNat + s.unitCount := hsum ▸ UInt32.lt_iff_toNat_lt.1 hgt
    have hpos : 0 < s.unitCount := s.unitCount_pos
    rw [sequences_drop hrest, ← hs', Scales.across, Scales.within, if_neg (by omega)]
    rfl
  | case2 utf16 i hi b s hnot ih =>
    obtain ⟨rest, hrest, -, hs⟩ := drop_eq_cons (List.getElem?_eq_getElem hi.1)
    have hs' : s = frontSequence b rest := hs
    rw [sequences_drop hrest, Scales.extent_cons, ← hs'] at hfit
    have hsum : (utf16 + s.units).toNat = utf16.toNat + s.unitCount :=
      toNat_add_units (by omega)
    have hle' : utf16.toNat + s.unitCount ≤ character.toNat :=
      hsum ▸ UInt32.le_iff_toNat_le.1 (UInt32.not_lt.1 hnot)
    rw [ih (UInt32.not_lt.1 hnot) (by rw [hsum]; omega), sequences_drop hrest, ← hs',
      Scales.across, Scales.across, Scales.within, if_pos (by omega), Scales.extent_cons, hsum,
      Nat.sub_add_eq]
    omega
  | case3 utf16 i hstop =>
    have hnil : Scales.within SequenceLen.unitCount (character.toNat - utf16.toNat)
        (sequences (text.drop i)) = [] := by
      by_cases hi : i < text.length
      · have hend : character ≤ utf16 := UInt32.not_lt.1 fun h => hstop ⟨hi, h⟩
        have hzero : character.toNat - utf16.toNat = 0 :=
          Nat.sub_eq_zero_of_le (UInt32.le_iff_toNat_le.1 hend)
        rw [hzero]
        exact Scales.within_extent SequenceLen.unitCount_pos List.nil_prefix
      · rw [List.drop_of_length_le (Nat.le_of_not_lt hi), sequences]
        rfl
    rw [Scales.across, hnil]
    rfl

theorem byteToUtf16Column_eq (text : List UInt8) (b : ℕ) :
    byteToUtf16Column text b = UInt32.ofNat
      (Scales.across SequenceLen.bytes SequenceLen.unitCount b (sequences text)) := by
  rw [byteToUtf16Column, columnLoop_eq, UInt32.zero_add, Nat.sub_zero, List.drop_zero]
  split
  · rename_i hge
    have hall : Scales.within SequenceLen.bytes b (sequences text) =
        Scales.within SequenceLen.bytes text.length (sequences text) := by
      have hpre := Scales.within_mono (w := SequenceLen.bytes) hge (sequences text)
      rw [← extent_bytes_sequences text,
        Scales.within_extent SequenceLen.bytes_pos List.prefix_rfl] at hpre ⊢
      exact (Scales.within_isPrefix b _).eq_of_length_le hpre.length_le
    rw [Scales.across, Scales.across, hall]
  · rfl

/-! ## UTF-8 -/

theorem lead_two : ∀ k < 32, utf8SequenceLen (UInt8.ofNat (k + 0xC0)) =
    ⟨2, 1, by decide, .inl rfl⟩ := by decide

theorem lead_three : ∀ k < 16, utf8SequenceLen (UInt8.ofNat (k + 0xE0)) =
    ⟨3, 1, by decide, .inl rfl⟩ := by decide

theorem lead_four : ∀ k < 8, utf8SequenceLen (UInt8.ofNat (k + 0xF0)) =
    ⟨4, 2, by decide, .inr rfl⟩ := by decide

theorem lead_one : ∀ k < 0x80, utf8SequenceLen (UInt8.ofNat k) =
    ⟨1, 1, by decide, .inl rfl⟩ := by decide

/-- The first byte of a character says how long it is on both scales. -/
theorem utf8EncodeChar_lead (c : Char) : ∃ b tail, String.utf8EncodeChar c = b :: tail ∧
    (utf8SequenceLen b).bytes = tail.length + 1 ∧ (utf8SequenceLen b).unitCount = utf16Size c := by
  have hval : c.toNat = c.val.toNat := rfl
  have hmax : c.val.toNat < 0x110000 := by
    have := c.valid
    simp only [UInt32.isValidChar, Nat.isValidChar] at this
    omega
  unfold String.utf8EncodeChar utf16Size
  by_cases h1 : c.val.toNat ≤ 0x7F
  · refine ⟨_, _, if_pos h1, ?_, ?_⟩ <;> rw [lead_one _ (by omega)]
    · rfl
    · rw [if_pos (by omega)]
      rfl
  by_cases h2 : c.val.toNat ≤ 0x7FF
  · refine ⟨_, _, (if_neg h1).trans (if_pos h2), ?_, ?_⟩ <;>
      rw [lead_two _ (Nat.mod_lt _ (by decide))]
    · rfl
    · rw [if_pos (by omega)]
      rfl
  by_cases h3 : c.val.toNat ≤ 0xFFFF
  · refine ⟨_, _, (if_neg h1).trans ((if_neg h2).trans (if_pos h3)), ?_, ?_⟩ <;>
      rw [lead_three _ (Nat.mod_lt _ (by decide))]
    · rfl
    · rw [if_pos (by omega)]
      rfl
  · refine ⟨_, _, (if_neg h1).trans ((if_neg h2).trans (if_neg h3)), ?_, ?_⟩ <;>
      rw [lead_four _ (Nat.mod_lt _ (by decide))]
    · rfl
    · rw [if_neg (by omega)]
      rfl

theorem utf8Encode_cons (c : Char) (cs : List Char) :
    utf8Encode (c :: cs) = String.utf8EncodeChar c ++ utf8Encode cs := rfl

theorem sequences_utf8EncodeChar (c : Char) (rest : List UInt8) :
    ∃ s, sequences (String.utf8EncodeChar c ++ rest) = s :: sequences rest ∧
      s.bytes = (String.utf8EncodeChar c).length ∧ s.unitCount = utf16Size c := by
  obtain ⟨b, tail, hc, hb, hu⟩ := utf8EncodeChar_lead c
  have hfront : frontSequence b (tail ++ rest) = utf8SequenceLen b := by
    rw [frontSequence, if_neg]
    rw [hb, List.length_append]
    omega
  refine ⟨utf8SequenceLen b, ?_, ?_, hu⟩
  · rw [hc, List.cons_append, sequences_cons, hfront, hb, List.drop_succ_cons, List.drop_left]
  · rw [hb, hc, List.length_cons]

/-- The sequences of UTF-8 are its characters. -/
theorem sequences_utf8Encode (cs : List Char) (rest : List UInt8) :
    ∃ p, sequences (utf8Encode cs ++ rest) = p ++ sequences rest ∧
      Scales.extent SequenceLen.bytes p = (utf8Encode cs).length ∧
      Scales.extent SequenceLen.unitCount p = (cs.map utf16Size).sum := by
  induction cs with
  | nil => exact ⟨[], rfl, rfl, rfl⟩
  | cons c cs ih =>
    obtain ⟨p, hp, hbytes, hunits⟩ := ih
    obtain ⟨s, hs, hb, hu⟩ := sequences_utf8EncodeChar c (utf8Encode cs ++ rest)
    refine ⟨s :: p, ?_, ?_, ?_⟩
    · rw [utf8Encode_cons, List.append_assoc, hs, hp]
      rfl
    · rw [Scales.extent_cons, hb, hbytes, utf8Encode_cons, List.length_append]
    · rw [Scales.extent_cons, hu, hunits, List.map_cons, List.sum_cons]

/-! ## The conversions -/

theorem insidePair_iff (text : List UInt8) (u : ℕ) : InsidePair text u ↔
    ∃ p s, p ++ [s] <+: sequences text ∧ Scales.extent SequenceLen.unitCount p < u ∧
      u < Scales.extent SequenceLen.unitCount p + s.unitCount := by
  constructor
  · rintro ⟨p, s, hp, hs, rfl⟩
    have hcount : s.unitCount = 2 := by rw [SequenceLen.unitCount, hs]; rfl
    exact ⟨p, s, hp, by omega, by omega⟩
  · rintro ⟨p, s, hp, hlow, hhigh⟩
    obtain hone | htwo := s.units_eq
    · have hcount : s.unitCount = 1 := by rw [SequenceLen.unitCount, hone]; rfl
      omega
    · have hcount : s.unitCount = 2 := by rw [SequenceLen.unitCount, htwo]; rfl
      exact ⟨p, s, hp, htwo, by omega⟩

theorem toNat_byteToUtf16Column {text : List UInt8} (h : unitsOf text < UInt32.size) (b : ℕ) :
    (byteToUtf16Column text b).toNat =
      Scales.across SequenceLen.bytes SequenceLen.unitCount b (sequences text) := by
  rw [byteToUtf16Column_eq, UInt32.toNat_ofNat']
  exact Nat.mod_eq_of_lt ((Scales.across_le b (sequences text)).trans_lt h)

theorem utf16ToByteOffset_eq {text : List UInt8} (h : unitsOf text < UInt32.size) (u : UInt32) :
    utf16ToByteOffset text u =
      Scales.across SequenceLen.unitCount SequenceLen.bytes u.toNat (sequences text) := by
  rw [utf16ToByteOffset, offsetLoop_eq text u 0 0 (UInt32.zero_le) (by simpa [unitsOf] using h), Nat.zero_add]
  rfl

/-- **The conversions are faithful on every line whose units fit in a
`UInt32`.** -/
theorem faithful (text : List UInt8) (h : unitsOf text < UInt32.size) : Faithful text where
  roundTrip := by
    rintro b ⟨p, hp, rfl⟩
    rw [utf16ToByteOffset_eq h, toNat_byteToUtf16Column h]
    exact Scales.across_across SequenceLen.bytes_pos SequenceLen.unitCount_pos hp
  columnMono := by
    intro b b' hle
    rw [UInt32.le_iff_toNat_le, toNat_byteToUtf16Column h, toNat_byteToUtf16Column h]
    exact Scales.across_mono hle _
  offsetMono := by
    intro u u' hle
    rw [utf16ToByteOffset_eq h, utf16ToByteOffset_eq h]
    exact Scales.across_mono (UInt32.le_iff_toNat_le.1 hle) _
  columnInLine := by
    intro b
    rw [toNat_byteToUtf16Column h]
    exact Scales.across_le b _
  offsetInLine := by
    intro u
    rw [utf16ToByteOffset_eq h, ← extent_bytes_sequences text]
    exact Scales.across_le _ _
  countsUnits := by
    rintro cs rest rfl
    have hsplit : utf8Encode (cs ++ rest) = utf8Encode cs ++ utf8Encode rest :=
      List.flatMap_append
    obtain ⟨p, hp, hbytes, hunits⟩ := sequences_utf8Encode cs (utf8Encode rest)
    rw [← hsplit] at hp
    refine ⟨?_, ?_⟩
    · rw [toNat_byteToUtf16Column h, ← hbytes, ← hunits]
      exact Scales.across_extent SequenceLen.bytes_pos (hp ▸ List.prefix_append p _)
    · intro c hc k hk
      obtain ⟨cs', rfl⟩ := List.head?_eq_some_iff.1 hc
      obtain ⟨s, hs, hb, -⟩ := sequences_utf8EncodeChar c (utf8Encode cs')
      rw [utf8Encode_cons, hs] at hp
      rw [String.length_utf8EncodeChar] at hb
      rw [toNat_byteToUtf16Column h, ← hbytes, ← hunits, Scales.across, hp,
        Scales.within_extent_add (hb ▸ hk)]
  roundDown := by
    intro u
    have hback : (byteToUtf16Column text (utf16ToByteOffset text u)).toNat =
        Scales.extent SequenceLen.unitCount
          (Scales.within SequenceLen.unitCount u.toNat (sequences text)) := by
      rw [toNat_byteToUtf16Column h, utf16ToByteOffset_eq h]
      exact Scales.across_across_eq SequenceLen.bytes_pos _ _
    refine ⟨?_, ?_⟩
    · rw [UInt32.le_iff_toNat_le, hback]
      exact Scales.extent_within_le _ _
    · rw [← UInt32.toNat_inj, hback, Scales.extent_within_eq_iff, insidePair_iff]
      rfl

/-- The one line of letters whose units are one too many. -/
def longLine : List UInt8 := List.replicate UInt32.size 0x61

theorem sequences_replicate (n : ℕ) :
    sequences (List.replicate n 0x61) = List.replicate n singleByte := by
  induction n with
  | zero => rw [List.replicate_zero, sequences, List.replicate_zero]
  | succ n ih =>
    have hfront : frontSequence 0x61 (List.replicate n 0x61) = singleByte := by
      rw [frontSequence]
      split <;> rfl
    rw [List.replicate_succ, sequences_cons, hfront, singleByte, List.drop_succ_cons,
      List.drop_zero, ih]
    rfl

theorem extent_replicate (n : ℕ) (w : SequenceLen → ℕ) (hw : w singleByte = 1) :
    Scales.extent w (List.replicate n singleByte) = n := by
  simp [Scales.extent, hw]

/-- At the end of that line the column is back at its start. -/
theorem not_faithful_longLine : ¬ ∀ text, Faithful text := by
  intro hall
  have hcut : sequences longLine = List.replicate UInt32.size singleByte := sequences_replicate _
  have hbound : Boundary longLine UInt32.size :=
    ⟨_, List.prefix_rfl, by rw [hcut, extent_replicate _ _ rfl]⟩
  have hcolumn : byteToUtf16Column longLine UInt32.size = 0 := by
    rw [byteToUtf16Column_eq, Scales.across, hcut]
    have hall : Scales.within SequenceLen.bytes UInt32.size
        (List.replicate UInt32.size singleByte) = List.replicate UInt32.size singleByte := by
      have := Scales.within_extent SequenceLen.bytes_pos
        (List.prefix_rfl (l := List.replicate UInt32.size singleByte))
      rwa [extent_replicate _ _ rfl] at this
    rw [hall, extent_replicate _ _ rfl]
    rfl
  have hzero : utf16ToByteOffset longLine 0 = 0 := by
    rw [utf16ToByteOffset, offsetLoop, dif_neg]
    exact fun h => UInt32.not_lt_zero h.2
  have htrip := (hall longLine).roundTrip _ hbound
  rw [hcolumn, hzero] at htrip
  cases htrip

/-- A two-byte letter, a pair and a cut-off sequence. -/
def mixedLine : List UInt8 := utf8Encode "aé😀".toList ++ [0xE2, 0x82]

theorem faithful_mixedLine : Faithful mixedLine := faithful mixedLine (by decide +kernel)

end LSP

end Nslc
