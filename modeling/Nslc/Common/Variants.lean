import Nslc.Common.Regions
/-!
# Texts that differ inside comments

Two texts of one length that are delimited alike and whose bytes differ
inside comments only (`Recommented`), and the cuts of strings, comments
and lines on such a pair: what is cut off in front is of one length on
both sides, and the rests are such a pair again.
-/

namespace Nslc

namespace Region

def inComment : Region → Bool
  | lineComment | block | star => true
  | _ => false

/-- A `*` of a block comment is one of its bytes. -/
def merge : Region → Region
  | star => block
  | r => r

theorem eq_of_merge_eq {r r' : Region} (h : r.merge = r'.merge) (hr : r.inComment = false) :
    r' = r := by
  cases r <;> cases r' <;> simp_all [merge, inComment]

theorem inComment_of_merge_eq {r r' : Region} (h : r.merge = r'.merge) :
    r'.inComment = r.inComment := by
  cases r <;> cases r' <;> simp_all [merge, inComment]

theorem merge_next_newline {r r' : Region} (h : r.merge = r'.merge) :
    (r.next '\n').merge = (r'.next '\n').merge := by
  cases r <;> cases r' <;> simp_all [merge, next]

end Region

/-- The texts are delimited alike, from the regions `r` and `r'` on, and
differ inside comments only, where newlines stay. -/
def Recommented : Region → Region → Text → Text → Prop
  | r, r', [], [] => r.merge = r'.merge
  | r, r', c :: cs, c' :: cs' =>
    r.merge = r'.merge ∧ (c = c' ∨ r.inComment = true ∧ c ≠ '\n' ∧ c' ≠ '\n') ∧
      Recommented (r.next c) (r'.next c') cs cs'
  | _, _, [], _ :: _ => False
  | _, _, _ :: _, [] => False

instance Recommented.decide : ∀ (r r' : Region) (t t' : Text), Decidable (Recommented r r' t t')
  | r, r', [], [] => inferInstanceAs (Decidable (r.merge = r'.merge))
  | r, r', c :: cs, c' :: cs' =>
    let _ := Recommented.decide (r.next c) (r'.next c') cs cs'
    inferInstanceAs (Decidable (_ ∧ _ ∧ _))
  | _, _, [], _ :: _ => inferInstanceAs (Decidable False)
  | _, _, _ :: _, [] => inferInstanceAs (Decidable False)

section Recommented

variable {r r' : Region} {c c' : Char} {t t' u u' : Text}

theorem recommented_nil (h : r.merge = r'.merge) : Recommented r r' [] [] := h

theorem recommented_cons_iff : Recommented r r' (c :: t) (c' :: t') ↔
    r.merge = r'.merge ∧ (c = c' ∨ r.inComment = true ∧ c ≠ '\n' ∧ c' ≠ '\n') ∧
      Recommented (r.next c) (r'.next c') t t' := Iff.rfl

theorem Recommented.merge_eq (h : Recommented r r' t t') : r.merge = r'.merge := by
  cases t with
  | nil =>
    cases t' with
    | nil => exact h
    | cons c' t' => exact h.elim
  | cons c t =>
    cases t' with
    | nil => exact h.elim
    | cons c' t' => exact h.1

/-- The other text goes on where the first does. -/
theorem Recommented.eq_nil (h : Recommented r r' [] t') : t' = [] := by
  cases t' with
  | nil => rfl
  | cons c' t' => exact h.elim

theorem Recommented.exists_cons (h : Recommented r r' (c :: t) t') :
    ∃ d u, t' = d :: u ∧ (c = d ∨ r.inComment = true ∧ c ≠ '\n' ∧ d ≠ '\n') ∧
      Recommented (r.next c) (r'.next d) t u := by
  cases t' with
  | nil => exact h.elim
  | cons d u => exact ⟨d, u, rfl, h.2.1, h.2.2⟩

/-- Outside comments the next byte is the same. -/
theorem Recommented.cons_outside (h : Recommented r r (c :: t) t') (hr : r.inComment = false) :
    ∃ u, t' = c :: u ∧ Recommented (r.next c) (r.next c) t u := by
  obtain ⟨d, u, rfl, hcd, hrest⟩ := h.exists_cons
  rcases hcd with rfl | ⟨hin, -⟩
  · exact ⟨u, rfl, hrest⟩
  · rw [hr] at hin
    cases hin

theorem Recommented.length_eq (h : Recommented r r' t t') : t'.length = t.length := by
  induction t generalizing r r' t' with
  | nil => rw [h.eq_nil]
  | cons c t ih =>
    obtain ⟨d, u, rfl, -, hrest⟩ := h.exists_cons
    simp only [List.length_cons, ih hrest]

theorem Recommented.newline_iff (h : Recommented r r' t t') : '\n' ∈ t' ↔ '\n' ∈ t := by
  induction t generalizing r r' t' with
  | nil => rw [h.eq_nil]
  | cons c t ih =>
    obtain ⟨d, u, rfl, hcd, hrest⟩ := h.exists_cons
    rw [List.mem_cons, List.mem_cons, ih hrest]
    rcases hcd with rfl | ⟨-, hc, hd⟩
    · exact Iff.rfl
    · constructor
      · rintro (he | hmem)
        · exact absurd he.symm hd
        · exact .inr hmem
      · rintro (he | hmem)
        · exact absurd he.symm hc
        · exact .inr hmem

theorem recommented_refl (r : Region) (t : Text) : Recommented r r t t := by
  induction t generalizing r with
  | nil => exact rfl
  | cons c t ih => exact ⟨rfl, .inl rfl, ih _⟩

/-- A piece that is the same on both sides. -/
theorem recommented_append_left (r : Region) (m : Text) (h : Recommented (r.scan m) (r.scan m) t t') :
    Recommented r r (m ++ t) (m ++ t') := by
  induction m generalizing r with
  | nil => exact h
  | cons c m ih => exact ⟨rfl, .inl rfl, ih _ h⟩

/-- Other texts behind two pieces of one length. -/
theorem Recommented.replace_rest {a a' x x' : Text} (h : Recommented r r' (a ++ x) (a' ++ x'))
    (hlen : a'.length = a.length) (hrest : Recommented (r.scan a) (r'.scan a') t t') :
    Recommented r r' (a ++ t) (a' ++ t') := by
  induction a generalizing r r' a' with
  | nil =>
    obtain rfl : a' = [] := List.eq_nil_of_length_eq_zero hlen
    exact hrest
  | cons c a ih =>
    obtain ⟨d, a', rfl⟩ := List.exists_cons_of_length_eq_add_one hlen
    obtain ⟨hmerge, hcd, hgo⟩ := h
    exact ⟨hmerge, hcd, ih hgo (by simpa using hlen) hrest⟩

/-- A newline behind. -/
theorem Recommented.append_newline (h : Recommented r r' t t') :
    Recommented r r' (t ++ ['\n']) (t' ++ ['\n']) := by
  induction t generalizing r r' t' with
  | nil =>
    rw [h.eq_nil]
    exact ⟨h.merge_eq, .inl rfl, Region.merge_next_newline h.merge_eq⟩
  | cons c t ih =>
    obtain ⟨d, u, rfl, hcd, hrest⟩ := h.exists_cons
    exact ⟨h.merge_eq, hcd, ih hrest⟩

theorem Recommented.dropLast (h : Recommented r r' t t') :
    Recommented r r' t.dropLast t'.dropLast := by
  induction t generalizing r r' t' with
  | nil =>
    rw [h.eq_nil]
    exact h.merge_eq
  | cons c t ih =>
    obtain ⟨d, u, rfl, hcd, hrest⟩ := h.exists_cons
    cases t with
    | nil =>
      rw [hrest.eq_nil]
      exact h.merge_eq
    | cons e t =>
      obtain ⟨e', u', rfl, -⟩ := hrest.exists_cons
      exact ⟨h.merge_eq, hcd, ih hrest⟩

/-- Behind a `/` that opens no comment the texts are read as code. -/
theorem Recommented.of_slash (h : Recommented .slash .slash t t') (h₁ : t.head? ≠ some '/')
    (h₂ : t.head? ≠ some '*') : Recommented .code .code t t' := by
  cases t with
  | nil =>
    rw [h.eq_nil]
    exact rfl
  | cons c t =>
    obtain ⟨u, rfl, hrest⟩ := h.cons_outside rfl
    rw [Region.next_slash (by simpa using h₁) (by simpa using h₂)] at hrest
    exact ⟨rfl, .inl rfl, hrest⟩

theorem Recommented.to_slash (h : Recommented .code .code t t') (h₁ : t.head? ≠ some '/')
    (h₂ : t.head? ≠ some '*') : Recommented .slash .slash t t' := by
  cases t with
  | nil =>
    rw [h.eq_nil]
    exact rfl
  | cons c t =>
    obtain ⟨u, rfl, hrest⟩ := h.cons_outside rfl
    rw [← Region.next_slash (by simpa using h₁) (by simpa using h₂)] at hrest
    exact ⟨rfl, .inl rfl, hrest⟩

theorem Recommented.head?_eq (h : Recommented r r t t') (hr : r.inComment = false) :
    t'.head? = t.head? := by
  cases t with
  | nil => rw [h.eq_nil]
  | cons c t =>
    obtain ⟨u, rfl, -⟩ := h.cons_outside hr
    rfl

/-! ## The part in front of the comments -/

/-- The bytes in front of the first byte that is read in a comment. -/
def outsidePart : Region → Text → Text
  | _, [] => []
  | r, c :: cs => if r.inComment then [] else c :: outsidePart (r.next c) cs

/-- Some byte is read in a comment. -/
def hasComment : Region → Text → Bool
  | _, [] => false
  | r, c :: cs => r.inComment || hasComment (r.next c) cs

/-- **The texts begin alike**, up to the first comment. -/
theorem Recommented.outsidePart_prefix (h : Recommented r r t t') :
    outsidePart r t <+: t ∧ outsidePart r t <+: t' := by
  induction t generalizing r t' with
  | nil => exact ⟨List.nil_prefix, List.nil_prefix⟩
  | cons c t ih =>
    rw [outsidePart]
    split
    · exact ⟨List.nil_prefix, List.nil_prefix⟩
    · next hr =>
      obtain ⟨u, rfl, hrest⟩ := h.cons_outside (by simpa using hr)
      obtain ⟨h₁, h₂⟩ := ih hrest
      exact ⟨List.cons_prefix_cons.2 ⟨rfl, h₁⟩, List.cons_prefix_cons.2 ⟨rfl, h₂⟩⟩

theorem Recommented.eq_of_no_comment (h : Recommented r r t t') (hc : hasComment r t = false) :
    t' = t := by
  induction t generalizing r t' with
  | nil => exact h.eq_nil
  | cons c t ih =>
    rw [hasComment, Bool.or_eq_false_iff] at hc
    obtain ⟨u, rfl, hrest⟩ := h.cons_outside hc.1
    rw [ih hrest hc.2]

/-! ## The cuts -/

theorem takeString_cons {c : Char} (hq : c ≠ '"') (hb : c ≠ '\\') (t : Text) :
    takeString (c :: t) = (c :: (takeString t).1, (takeString t).2) := by
  rw [takeString.eq_def]
  simp only [if_neg hq, if_neg hb]

/-- **Strings are the same**, and the pair goes on behind them. -/
theorem Recommented.takeString (h : Recommented .string .string t t') (hnl : '\n' ∉ t) :
    (takeString t').1 = (takeString t).1 ∧
      Recommented .code .code (Nslc.takeString t).2 (Nslc.takeString t').2 := by
  fun_induction Nslc.takeString t generalizing t' with
  | case1 =>
    rw [h.eq_nil]
    exact ⟨rfl, rfl⟩
  | case2 cs =>
    obtain ⟨u, rfl, hrest⟩ := h.cons_outside rfl
    rw [takeString.eq_def]
    exact ⟨rfl, hrest⟩
  | case3 hq =>
    obtain ⟨u, rfl, hrest⟩ := h.cons_outside rfl
    obtain rfl := hrest.eq_nil
    exact ⟨rfl, rfl⟩
  | case4 hq d ds ih =>
    obtain ⟨u, rfl, hrest⟩ := h.cons_outside rfl
    obtain ⟨v, rfl, hrest'⟩ := hrest.cons_outside rfl
    obtain ⟨h₁, h₂⟩ := ih hrest' fun hmem => hnl (by simp [hmem])
    refine ⟨?_, ?_⟩
    · simp [Nslc.takeString, h₁]
    · simpa [Nslc.takeString] using h₂
  | case5 c cs hq hb ih =>
    obtain ⟨u, rfl, hrest⟩ := h.cons_outside rfl
    have hc : c ≠ '\n' := fun he => hnl (by simp [he])
    have hnext : Region.string.next c = .string := by simp [Region.next, hq, hb, hc]
    rw [hnext] at hrest
    obtain ⟨h₁, h₂⟩ := ih hrest fun hmem => hnl (by simp [hmem])
    rw [takeString_cons hq hb, h₁]
    exact ⟨rfl, h₂⟩

/-- A block comment is closed by the two bytes of its mark. -/
theorem Region.closes_iff {r : Region} {c d : Char} {t : Text} (h : r.InBlock (c :: d :: t)) :
    ((r.next c).next d).merge = .code ↔ c = '*' ∧ d = '/' := by
  by_cases hc : c = '*'
  · have hnext : r.next c = .star := by
      rcases h with rfl | ⟨rfl, -⟩ <;> simp [Region.next, hc]
    rw [hnext, Region.next]
    constructor
    · intro hm
      split_ifs at hm with h₁ h₂ <;> simp_all [Region.merge]
    · rintro ⟨-, rfl⟩
      rfl
  · have hnext : r.next c = .block := by
      rcases h with rfl | ⟨rfl, hd⟩
      · simp [Region.next, hc]
      · have hs : c ≠ '/' := by simpa using hd
        simp [Region.next, hc, hs]
    rw [hnext, Region.next]
    constructor
    · intro hm
      split_ifs at hm <;> simp_all [Region.merge]
    · rintro ⟨rfl, -⟩
      exact absurd rfl hc

/-- In a block comment the next region is one, or the comment is
closed. -/
theorem Recommented.inBlock_next {d d' : Char} (h : Recommented r r' (c :: d :: t) (c' :: d' :: t'))
    (hr : r.InBlock (c :: d :: t)) (hr' : r'.InBlock (c' :: d' :: t')) :
    (c' = '*' ∧ d' = '/') ↔ (c = '*' ∧ d = '/') := by
  rw [← Region.closes_iff hr, ← Region.closes_iff hr', h.2.2.2.2.merge_eq]

/-- **Block comments are of one length**, and closed or open alike. -/
theorem Recommented.takeBlock (h : Recommented r r' t t') (hr : r.InBlock t) (hr' : r'.InBlock t') :
    (takeBlock t').closed = (takeBlock t).closed ∧
      (takeBlock t').copied.length = (takeBlock t).copied.length ∧
      ((Nslc.takeBlock t).closed = true →
        Recommented .code .code (Nslc.takeBlock t).rest (Nslc.takeBlock t').rest) := by
  fun_induction Nslc.takeBlock t generalizing r r' t' with
  | case1 =>
    rw [h.eq_nil]
    exact ⟨rfl, rfl, by simp⟩
  | case2 c =>
    obtain ⟨c', u, rfl, -, hrest⟩ := h.exists_cons
    obtain rfl := hrest.eq_nil
    exact ⟨rfl, rfl, by simp⟩
  | case3 c d ds hcd =>
    obtain ⟨c', u, rfl, hc, hrest⟩ := h.exists_cons
    obtain ⟨d', v, rfl, hd, hrest'⟩ := hrest.exists_cons
    have hcd' := (h.inBlock_next hr hr').2 hcd
    have hcode : (r.next c).next d = .code := by
      have hm := (Region.closes_iff hr).2 hcd
      exact (Region.eq_of_merge_eq (r := .code) hm.symm rfl)
    have hcode' : (r'.next c').next d' = .code := by
      have hm := (Region.closes_iff hr').2 hcd'
      exact (Region.eq_of_merge_eq (r := .code) hm.symm rfl)
    rw [hcode, hcode'] at hrest'
    simp only [Nslc.takeBlock, if_pos hcd']
    exact ⟨trivial, rfl, fun _ => hrest'⟩
  | case4 c d ds hcd ih =>
    obtain ⟨c', u, rfl, hc, hrest⟩ := h.exists_cons
    obtain ⟨d', v, rfl, hd, hrest'⟩ := hrest.exists_cons
    have hcd' : ¬ (c' = '*' ∧ d' = '/') := fun hcl => hcd ((h.inBlock_next hr hr').1 hcl)
    obtain ⟨h₁, h₂, h₃⟩ := ih hrest (hr.next (by simpa using hcd)) (hr'.next (by simpa using hcd'))
    have hcut : Nslc.takeBlock (c' :: d' :: v) =
        ⟨c' :: (Nslc.takeBlock (d' :: v)).copied, (Nslc.takeBlock (d' :: v)).closed,
          (Nslc.takeBlock (d' :: v)).rest⟩ := by
      rw [Nslc.takeBlock, if_neg hcd']
    rw [hcut]
    exact ⟨h₁, by simp only [List.length_cons, h₂], h₃⟩

/-- A run of bytes that change nothing in code. -/
theorem Recommented.takeWhile {p : Char → Bool} (hp : ∀ c, p c = true → Region.code.next c = .code)
    (h : Recommented .code .code t t') :
    t'.takeWhile p = t.takeWhile p ∧
      Recommented .code .code (t.dropWhile p) (t'.dropWhile p) := by
  induction t generalizing t' with
  | nil =>
    rw [h.eq_nil]
    exact ⟨rfl, rfl⟩
  | cons c t ih =>
    obtain ⟨u, rfl, hrest⟩ := h.cons_outside rfl
    by_cases hc : p c = true
    · rw [hp c hc] at hrest
      obtain ⟨h₁, h₂⟩ := ih hrest
      simp only [List.takeWhile_cons_of_pos hc, List.dropWhile_cons_of_pos hc, h₁]
      exact ⟨trivial, h₂⟩
    · simp only [List.takeWhile_cons_of_neg hc, List.dropWhile_cons_of_neg hc]
      exact ⟨trivial, h⟩

/-! ## Lines -/

/-- **The lines are a pair each.** -/
theorem Recommented.takeLine (h : Recommented r r' t t') :
    (takeLine t').1.newline = (takeLine t).1.newline ∧
      Recommented r r' (Nslc.takeLine t).1.body (Nslc.takeLine t').1.body ∧
      Recommented (r.scan (Nslc.takeLine t).1.bytes) (r'.scan (Nslc.takeLine t').1.bytes)
        (Nslc.takeLine t).2 (Nslc.takeLine t').2 := by
  induction t generalizing r r' t' with
  | nil =>
    rw [h.eq_nil]
    exact ⟨rfl, h.merge_eq, h.merge_eq⟩
  | cons c t ih =>
    obtain ⟨d, u, rfl, hcd, hrest⟩ := h.exists_cons
    by_cases hc : c = '\n'
    · have hd : d = '\n' := by
        rcases hcd with rfl | ⟨-, hne, -⟩
        · exact hc
        · exact absurd hc hne
      subst hc hd
      exact ⟨rfl, h.merge_eq, hrest⟩
    · have hd : d ≠ '\n' := by
        rcases hcd with rfl | ⟨-, -, hne⟩
        · exact hc
        · exact hne
      obtain ⟨h₁, h₂, h₃⟩ := ih hrest
      simp only [Nslc.takeLine, if_neg hc, if_neg hd]
      exact ⟨h₁, ⟨h.merge_eq, hcd, h₂⟩, h₃⟩

/-- A line's newline belongs to it with the carriage return in front. -/
def KeepsBreak (l l' : Line) : Prop := l'.body.getLast? = some '\r' ↔ l.body.getLast? = some '\r'

instance (l l' : Line) : Decidable (KeepsBreak l l') := inferInstanceAs (Decidable (_ ↔ _))

/-- `t'` is `t` with bytes of its comments replaced: the comments are
delimited alike and the line breaks stay. -/
def CommentVariant (t t' : Text) : Prop :=
  Recommented .code .code t t' ∧ List.Forall₂ KeepsBreak (splitLines t) (splitLines t')

theorem commentVariant_refl (t : Text) : CommentVariant t t :=
  ⟨recommented_refl .code t, List.forall₂_same.2 fun _ _ => Iff.rfl⟩

theorem commentVariant_nil : CommentVariant [] [] := commentVariant_refl []

/-- **One line of a variant.** Where the line ends in code, the rests are
variants again. -/
theorem CommentVariant.takeLine (h : CommentVariant t t') (hne : t ≠ []) :
    (takeLine t').1.newline = (takeLine t).1.newline ∧
      Recommented .code .code (Nslc.takeLine t).1.body (Nslc.takeLine t').1.body ∧
      KeepsBreak (Nslc.takeLine t).1 (Nslc.takeLine t').1 ∧
      (((Nslc.takeLine t).1.newline = true → Region.code.scan (Nslc.takeLine t).1.bytes = .code) →
        CommentVariant (Nslc.takeLine t).2 (Nslc.takeLine t').2) := by
  obtain ⟨hrec, hbreaks⟩ := h
  have hne' : t' ≠ [] := by
    rintro rfl
    exact hne (List.eq_nil_of_length_eq_zero hrec.length_eq.symm)
  rw [splitLines_eq_takeLine hne, splitLines_eq_takeLine hne', List.forall₂_cons] at hbreaks
  obtain ⟨h₁, h₂, h₃⟩ := hrec.takeLine
  refine ⟨h₁, h₂, hbreaks.1, fun hcode => ?_⟩
  cases hnl : (Nslc.takeLine t).1.newline with
  | false =>
    rw [takeLine_snd_of_newline_false hnl, takeLine_snd_of_newline_false (h₁.trans hnl)]
    exact commentVariant_nil
  | true =>
    have hregion := Region.eq_of_merge_eq h₃.merge_eq (by rw [hcode hnl]; rfl)
    rw [hregion, hcode hnl] at h₃
    exact ⟨h₃, hbreaks.2⟩

end Recommented

end Nslc
