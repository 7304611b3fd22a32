import Nslc.Basic.LineColumn
import Nslc.LSP.PositionEncoding
import Nslc.Preprocess.Directive
/-!
# Positions in a document

The editor shows characters, the server holds their UTF-8 bytes. A byte
is shown where its character is: on the line of the newlines before it,
behind the UTF-16 units of the characters between the last of them and
it. The line map and `byteToUtf16Column` find that place in the bytes.
-/

namespace Nslc

namespace LSP

/-- A byte as a buffer holds it. -/
def byteChar (b : UInt8) : Char := Char.ofNat b.toNat

/-- The bytes of a text in UTF-8. -/
def utf8Bytes (cs : List Char) : Text := (utf8Encode cs).map byteChar

/-- The text of a buffer as the conversions read it. -/
def octets (t : Text) : List UInt8 := t.map fun c => UInt8.ofNat c.toNat

/-- A place in a document: the line, from 0, and the UTF-16 units in
front of it on the line. -/
structure Position where
  line : ℕ
  character : ℕ
  deriving DecidableEq, Repr

/-- **The position at which an editor shows byte `off` of a document**:
that of the character the byte belongs to. -/
def shownAt (doc : List Char) (off : ℕ) : Position :=
  let before := Scales.within Char.utf8Size off doc
  ⟨before.count '\n', ((before.rtakeWhile (· ≠ '\n')).map utf16Size).sum⟩

/-! ## The bytes of a text -/

theorem toNat_byteChar (b : UInt8) : (byteChar b).toNat = b.toNat := by
  have := b.toNat_lt
  rw [byteChar, Char.toNat_ofNat, if_pos (.inl (by omega))]

theorem octets_map_byteChar (bs : List UInt8) : octets (bs.map byteChar) = bs := by
  rw [octets, List.map_map]
  conv_rhs => rw [← List.map_id bs]
  refine List.map_congr_left fun b _ => ?_
  rw [Function.comp_apply, toNat_byteChar, UInt8.ofNat_toNat, id]

theorem octets_utf8Bytes (cs : List Char) : octets (utf8Bytes cs) = utf8Encode cs :=
  octets_map_byteChar _

@[simp] theorem utf8Bytes_nil : utf8Bytes [] = [] := rfl

theorem utf8Bytes_append (cs ds : List Char) :
    utf8Bytes (cs ++ ds) = utf8Bytes cs ++ utf8Bytes ds := by
  rw [utf8Bytes, utf8Encode, List.flatMap_append, List.map_append]
  rfl

theorem utf8Bytes_newline : utf8Bytes ['\n'] = ['\n'] := by decide

theorem utf8Bytes_cons (c : Char) (cs : List Char) :
    utf8Bytes (c :: cs) = utf8Bytes [c] ++ utf8Bytes cs := utf8Bytes_append [c] cs

theorem length_utf8Bytes (cs : List Char) :
    (utf8Bytes cs).length = Scales.extent Char.utf8Size cs := by
  induction cs with
  | nil => rfl
  | cons c cs ih =>
    rw [utf8Bytes_cons, List.length_append, ih, Scales.extent_cons]
    simp [utf8Bytes, utf8Encode]

theorem utf8Bytes_singleton_ne_nil (c : Char) : utf8Bytes [c] ≠ [] := by
  rw [Ne, ← List.length_eq_zero_iff, length_utf8Bytes]
  have := c.utf8Size_pos
  simp only [Scales.extent_cons, Scales.extent_nil]
  omega

/-- A character below 128 is its byte; the bytes of any other have their
top bit set. -/
theorem utf8Bytes_singleton (c : Char) :
    c.toNat < 128 ∧ utf8Bytes [c] = [c] ∨ 128 ≤ c.toNat ∧ ∀ b ∈ utf8Bytes [c], 128 ≤ b.toNat := by
  have hval : c.toNat = c.val.toNat := rfl
  have hbytes : utf8Bytes [c] = (String.utf8EncodeChar c).map byteChar := by
    simp [utf8Bytes, utf8Encode]
  by_cases h1 : c.val.toNat ≤ 0x7F
  · refine .inl ⟨by omega, ?_⟩
    have hc : byteChar (UInt8.ofNat c.val.toNat) = c := by
      rw [byteChar, UInt8.toNat_ofNat', Nat.mod_eq_of_lt (by omega)]
      exact Char.ofNat_toNat c
    rw [hbytes, String.utf8EncodeChar, if_pos h1]
    exact congrArg (fun d => [d]) hc
  · refine .inr ⟨by omega, ?_⟩
    intro b hb
    rw [hbytes] at hb
    obtain ⟨u, hu, rfl⟩ := List.mem_map.1 hb
    rw [toNat_byteChar]
    simp only [String.utf8EncodeChar, if_neg h1] at hu
    split_ifs at hu
    all_goals
      simp only [List.mem_cons, List.not_mem_nil, or_false] at hu
      rcases hu with rfl | hu
      · rw [UInt8.toNat_ofNat']
        omega
    · subst hu
      rw [UInt8.toNat_ofNat']
      omega
    · rcases hu with rfl | rfl <;> rw [UInt8.toNat_ofNat'] <;> omega
    · rcases hu with rfl | rfl | rfl <;> rw [UInt8.toNat_ofNat'] <;> omega

/-- Only a newline has the byte of one. -/
theorem newline_mem_utf8Bytes {cs : List Char} : '\n' ∈ utf8Bytes cs ↔ '\n' ∈ cs := by
  induction cs with
  | nil => rfl
  | cons c cs ih =>
    rw [utf8Bytes_cons, List.mem_append, ih, List.mem_cons]
    refine or_congr_left ?_
    obtain ⟨-, heq⟩ | ⟨hbig, hall⟩ := utf8Bytes_singleton c
    · rw [heq, List.mem_singleton]
    · constructor
      · exact fun h => absurd (hall _ h) (by decide)
      · rintro rfl
        exact absurd hbig (by decide)

/-- A trailing carriage return is one in the bytes. -/
theorem stripCR_utf8Bytes (cs : List Char) :
    Preprocess.stripCR (utf8Bytes cs) = utf8Bytes (Preprocess.stripCR cs) := by
  obtain rfl | ⟨ds, c, rfl⟩ := cs.eq_nil_or_concat'
  · rfl
  · obtain ⟨-, heq⟩ | ⟨hbig, hall⟩ := utf8Bytes_singleton c
    · rw [utf8Bytes_append, heq]
      by_cases hc : c = '\r'
      · simp [Preprocess.stripCR, hc]
      · simp [Preprocess.stripCR, hc, utf8Bytes_append, heq]
    · have hc : c ≠ '\r' := by
        rintro rfl
        exact absurd hbig (by decide)
      have hlast : (utf8Bytes (ds ++ [c])).getLast? ≠ some '\r' := by
        rw [utf8Bytes_append, List.getLast?_append_of_ne_nil _ (utf8Bytes_singleton_ne_nil c)]
        intro h
        exact absurd (hall _ (List.mem_of_getLast? h)) (by decide)
      rw [Preprocess.stripCR, if_neg hlast, Preprocess.stripCR, if_neg (by simpa using hc)]

/-- The lines of the bytes are the bytes of the lines. -/
theorem takeLine_utf8Bytes (cs : List Char) :
    (takeLine (utf8Bytes cs)).1.body = utf8Bytes (takeLine cs).1.body ∧
      (takeLine (utf8Bytes cs)).1.newline = (takeLine cs).1.newline ∧
      (takeLine (utf8Bytes cs)).2 = utf8Bytes (takeLine cs).2 := by
  have hcut : ∀ (b : Text) (t : Text), '\n' ∉ b →
      (takeLine (b ++ t)).1.body = b ++ (takeLine t).1.body ∧
        (takeLine (b ++ t)).1.newline = (takeLine t).1.newline ∧
        (takeLine (b ++ t)).2 = (takeLine t).2 := by
    intro b t hb
    induction b with
    | nil => exact ⟨rfl, rfl, rfl⟩
    | cons a b ih =>
      simp only [List.mem_cons, not_or] at hb
      have ha : ¬ a = '\n' := fun h => hb.1 h.symm
      obtain ⟨hbody, hnl, hrest⟩ := ih hb.2
      simp [takeLine, ha, hbody, hnl, hrest]
  induction cs with
  | nil => exact ⟨rfl, rfl, rfl⟩
  | cons c cs ih =>
    obtain ⟨hbody, hnl, hrest⟩ := ih
    rw [utf8Bytes_cons]
    by_cases hc : c = '\n'
    · subst hc
      simp [takeLine, utf8Bytes_newline]
    · have hno : '\n' ∉ utf8Bytes [c] := by
        rw [newline_mem_utf8Bytes, List.mem_singleton]
        exact fun h => hc h.symm
      obtain ⟨hbody', hnl', hrest'⟩ := hcut _ (utf8Bytes cs) hno
      rw [hbody', hnl', hrest', hbody, hnl, hrest]
      simp only [takeLine, hc, if_false]
      exact ⟨(utf8Bytes_cons _ _).symm, trivial, trivial⟩

theorem count_newline_utf8Bytes (cs : List Char) :
    (utf8Bytes cs).count '\n' = cs.count '\n' := by
  induction cs with
  | nil => rfl
  | cons c cs ih =>
    rw [utf8Bytes_cons, List.count_append, ih]
    by_cases hc : c = '\n'
    · subst hc
      rw [utf8Bytes_newline, List.count_singleton_self, List.count_cons_self, Nat.add_comm]
    · have hno : '\n' ∉ utf8Bytes [c] := by
        rw [newline_mem_utf8Bytes, List.mem_singleton]
        exact fun h => hc h.symm
      rw [List.count_eq_zero.2 hno, List.count_cons_of_ne hc, Nat.zero_add]

theorem atLineStart_utf8Bytes {cs : List Char} (h : AtLineStart cs) :
    AtLineStart (utf8Bytes cs) := by
  obtain rfl | hlast := h
  · exact .inl rfl
  · obtain ⟨ds, rfl⟩ := List.getLast?_eq_some_iff.1 hlast
    exact .inr (by rw [utf8Bytes_append, utf8Bytes_newline]; simp)

/-! ## Where a byte is shown -/

/-- **Every byte of a document stands in a line**, behind whole ones. -/
theorem exists_inFirstLine (doc : List Char) (off : ℕ) :
    ∃ pre rest c, doc = pre ++ rest ∧ AtLineStart pre ∧ off = (utf8Bytes pre).length + c ∧
      InFirstLine (utf8Bytes rest) c := by
  induction hn : doc.length using Nat.strong_induction_on generalizing doc off with
  | _ n ih =>
    by_cases h : InFirstLine (utf8Bytes doc) off
    · exact ⟨[], doc, off, rfl, .inl rfl, (Nat.zero_add off).symm, h⟩
    · obtain ⟨hnl, hlt⟩ : (takeLine doc).1.newline = true ∧
          (utf8Bytes (takeLine doc).1.body).length < off := by
        obtain ⟨hbody, hnl, -⟩ := takeLine_utf8Bytes doc
        simpa [InFirstLine, hbody, hnl] using h
      have hne : doc ≠ [] := by
        rintro rfl
        simp [takeLine] at hnl
      -- the byte stands behind the first line
      have hbytes : (takeLine doc).1.bytes = (takeLine doc).1.body ++ ['\n'] := by
        rw [Line.bytes, Line.term, hnl, if_pos rfl]
      obtain ⟨pre, rest, c, hsplit, hpre, hoff, hc⟩ := ih _ (hn ▸ takeLine_snd_length_lt hne)
        (takeLine doc).2 (off - ((utf8Bytes (takeLine doc).1.body).length + 1)) rfl
      refine ⟨(takeLine doc).1.bytes ++ pre, rest, c, ?_, ?_, ?_, hc⟩
      · rw [List.append_assoc, ← hsplit, takeLine_bytes]
      · obtain rfl | hlast := hpre
        · rw [List.append_nil, hbytes]
          exact .inr (by simp)
        · exact .inr (by rw [List.getLast?_append, hlast]; rfl)
      · rw [utf8Bytes_append, hbytes, utf8Bytes_append, utf8Bytes_newline, List.length_append,
          List.length_append, List.length_singleton]
        omega

variable {pre rest : List Char} {c : ℕ}

/-- Behind whole lines, a byte is shown by its own line. -/
theorem shownAt_append (hpre : AtLineStart pre) (h : InFirstLine (utf8Bytes rest) c) :
    shownAt (pre ++ rest) ((utf8Bytes pre).length + c) =
      ⟨pre.count '\n', Scales.across Char.utf8Size utf16Size c (takeLine rest).1.body⟩ := by
  obtain ⟨hbody, hnl, -⟩ := takeLine_utf8Bytes rest
  have hbytes := takeLine_bytes rest
  have hsize : ∀ d : Char, 0 < d.utf8Size := Char.utf8Size_pos
  -- of the line the characters in front of the byte
  have hline : Scales.within Char.utf8Size c rest =
      Scales.within Char.utf8Size c (takeLine rest).1.body := by
    cases hn : (takeLine rest).1.newline with
    | true =>
      have hle := h (hnl.trans hn)
      rw [hbody, length_utf8Bytes] at hle
      rw [Line.bytes, List.append_assoc] at hbytes
      conv_lhs => rw [← hbytes]
      exact Scales.within_append_of_le hsize hle _
    | false =>
      rw [takeLine_snd_of_newline_false hn, List.append_nil, Line.bytes, Line.term, hn] at hbytes
      have hrest : (takeLine rest).1.body = rest := by simpa using hbytes
      rw [hrest]
  have hno : '\n' ∉ Scales.within Char.utf8Size c (takeLine rest).1.body := fun hmem =>
    newline_takeLine rest ((Scales.within_isPrefix _ _).subset hmem)
  rw [shownAt, length_utf8Bytes, Scales.within_append, hline]
  generalize hq : Scales.within Char.utf8Size c (takeLine rest).1.body = q at hno
  have hcur : (pre ++ q).rtakeWhile (fun d => decide (d ≠ '\n')) = q := by
    rw [List.rtakeWhile, List.reverse_append, List.takeWhile_append_of_pos]
    · obtain rfl | hlast := hpre
      · simp
      · obtain ⟨p, rfl⟩ := List.getLast?_eq_some_iff.1 hlast
        simp
    · intro d hd
      have hne : d ≠ '\n' := fun he => hno (he ▸ List.mem_reverse.1 hd)
      exact decide_eq_true hne
  simp only [hcur, List.count_append, List.count_eq_zero.2 hno, Nat.add_zero]
  rw [Scales.across, hq]
  rfl

/-- The column of a byte, by characters. -/
theorem byteToUtf16Column_utf8Encode {b : List Char}
    (hb : Scales.extent utf16Size b < UInt32.size) (c : ℕ) :
    (byteToUtf16Column (utf8Encode b) c).toNat =
      Scales.across Char.utf8Size utf16Size c b := by
  have hsizes : List.Forall₂ (fun s d => SequenceLen.bytes s = Char.utf8Size d ∧
      SequenceLen.unitCount s = utf16Size d) (sequences (utf8Encode b)) b := by
    induction b with
    | nil =>
      have hnil : sequences (utf8Encode []) = [] := by simp [utf8Encode, sequences]
      rw [hnil]
      exact .nil
    | cons d b ih =>
      obtain ⟨s, hs, hbytes, hunits⟩ := sequences_utf8EncodeChar d (utf8Encode b)
      rw [utf8Encode_cons, hs]
      rw [Scales.extent_cons] at hb
      refine .cons ⟨?_, hunits⟩ (ih (by omega))
      rw [hbytes, String.length_utf8EncodeChar]
  have hunits : unitsOf (utf8Encode b) = Scales.extent utf16Size b := by
    have hall : ∀ {l : List SequenceLen} {m : List Char}, List.Forall₂ (fun s d =>
        SequenceLen.bytes s = Char.utf8Size d ∧ SequenceLen.unitCount s = utf16Size d) l m →
        Scales.extent SequenceLen.unitCount l = Scales.extent utf16Size m := by
      intro l m hlm
      induction hlm with
      | nil => rfl
      | cons hab _ ih => rw [Scales.extent_cons, Scales.extent_cons, hab.2, ih]
    exact hall hsizes
  rw [toNat_byteToUtf16Column (hunits ▸ hb), Scales.across_congr hsizes]

/-- A split of the bytes where a line begins splits the document. -/
theorem exists_split {doc : List Char} {p r : Text} (h : utf8Bytes doc = p ++ r)
    (hp : AtLineStart p) : ∃ pre rest, doc = pre ++ rest ∧ p = utf8Bytes pre ∧ r = utf8Bytes rest := by
  induction doc generalizing p with
  | nil =>
    obtain ⟨rfl, rfl⟩ := List.append_eq_nil_iff.1 h.symm
    exact ⟨[], [], rfl, rfl, rfl⟩
  | cons c cs ih =>
    obtain rfl | hlast := hp
    · exact ⟨[], c :: cs, rfl, rfl, h.symm⟩
    · rw [utf8Bytes_cons] at h
      rcases List.append_eq_append_iff.1 h with ⟨q, rfl, hcs⟩ | ⟨q, hc, rfl⟩
      · have hq : AtLineStart q := by
          obtain rfl | hne := q.eq_nil_or_concat'
          · exact .inl rfl
          · obtain ⟨q', d, rfl⟩ := hne
            rw [← List.append_assoc, List.getLast?_concat] at hlast
            exact .inr (by rw [List.getLast?_concat, hlast])
        obtain ⟨pre, rest, rfl, rfl, rfl⟩ := ih hcs hq
        exact ⟨c :: pre, rest, rfl, (utf8Bytes_cons c pre).symm, rfl⟩
      · -- a newline is a character of its own, so nothing of it is left over
        have hmem : '\n' ∈ utf8Bytes [c] := by
          rw [hc]
          exact List.mem_append_left _ (List.mem_of_getLast? hlast)
        obtain rfl : '\n' = c := List.mem_singleton.1 (newline_mem_utf8Bytes.1 hmem)
        have hpos : p ≠ [] := by
          rintro rfl
          simp at hlast
        have hlen := congrArg List.length (utf8Bytes_newline.symm.trans hc)
        rw [List.length_append, List.length_singleton] at hlen
        have := List.length_pos_iff.2 hpos
        obtain rfl : q = [] := List.length_eq_zero_iff.1 (by omega)
        rw [List.append_nil] at hc
        exact ⟨['\n'], cs, rfl, hc.symm, rfl⟩

/-- A character takes no more units than bytes. -/
theorem extent_utf16Size_le (b : List Char) :
    Scales.extent utf16Size b ≤ (utf8Bytes b).length := by
  rw [length_utf8Bytes]
  induction b with
  | nil => exact Nat.le_refl _
  | cons d b ih =>
    have hd : utf16Size d ≤ d.utf8Size := by
      have hval : d.toNat = d.val.toNat := rfl
      have hiff : ∀ u : UInt32, d.val ≤ u ↔ d.val.toNat ≤ u.toNat := fun _ => UInt32.le_iff_toNat_le
      simp only [utf16Size, Char.utf8Size, hiff]
      split_ifs <;> simp_all
      omega
    rw [Scales.extent_cons, Scales.extent_cons]
    omega

/-- A line start in the bytes is one of the document. -/
theorem atLineStart_of_utf8Bytes {cs : List Char} (h : AtLineStart (utf8Bytes cs)) :
    AtLineStart cs := by
  obtain rfl | ⟨ds, d, rfl⟩ := cs.eq_nil_or_concat'
  · exact .inl rfl
  · refine .inr ?_
    obtain hnil | hlast := h
    · rw [utf8Bytes_append] at hnil
      exact absurd (List.append_eq_nil_iff.1 hnil).2 (utf8Bytes_singleton_ne_nil d)
    · obtain ⟨-, heq⟩ | ⟨-, hall⟩ := utf8Bytes_singleton d
      · rw [utf8Bytes_append, heq, List.getLast?_concat] at hlast
        rw [List.getLast?_concat, hlast]
      · rw [utf8Bytes_append, List.getLast?_append_of_ne_nil _ (utf8Bytes_singleton_ne_nil d)]
          at hlast
        exact absurd (hall _ (List.mem_of_getLast? hlast)) (by decide)

end LSP

end Nslc
