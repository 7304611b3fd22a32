import Mathlib
import Nslc.Basic.VirtualLocation
import Nslc.Preprocess.Machine
/-!
# Driver — replaying the line markers

The driver registers the preprocessed text as a buffer of its own and
replays the `#line` markers it finds at line starts onto that buffer's
line map (`emitTokens`); locations of the lexer and of everything behind
it are resolved through that map. `track` follows the markers line by
line, and `virtualLoc_append` says that the map gives a line's start
the location `track` has reached there.
-/

namespace Nslc

namespace Driver

open Preprocess (isWS isDigit decimalValue isDigit_of_mem_toDigits)

/-- The scan's reading of a line: the number and the file name of a
marker, the name empty where it is missing or not closed. -/
@[grind =] def parseMarker (line : Text) : Option (ℕ × Text) :=
  if "#line ".toList.isPrefixOf line then
    let s := (line.drop 6).dropWhile isWS
    let digits := s.takeWhile isDigit
    if digits = [] then none
    else
      match (s.dropWhile isDigit).dropWhile isWS with
      | [] => some (decimalValue digits, [])
      | c :: cs =>
        if c = '"' ∧ '"' ∈ cs then some (decimalValue digits, cs.takeWhile (· ≠ '"'))
        else some (decimalValue digits, [])
  else none

/-- The replay loop over the lines from offset `off` on. -/
@[grind =]
def replayLines (sm : SourceManager) (fid : FileID) : ℕ → List Line → Option SourceManager
  | _, [] => some sm
  | off, l :: ls =>
    match parseMarker l.body with
    | none => replayLines sm fid (off + l.bytes.length) ls
    | some (n, p) =>
      if kMaxOffset ≤ off + l.bytes.length then none
      else
        match sm.addLineDirective fid (off + l.bytes.length) (n % 2 ^ 32) p with
        | none => none
        | some sm => replayLines sm fid (off + l.bytes.length) ls

/-- The preprocessed text as a buffer with its line map. -/
def replay (sm : SourceManager) (path out : Text) : Option Buffer :=
  match sm.addBufferInMemory path out with
  | none => none
  | some (sm, fid) => (replayLines sm fid 0 (splitLines out)).bind fun sm => sm.buffer? fid

/-- The path and line downstream locations at `off` are shown with. -/
def virtualLoc (sm : SourceManager) (path out : Text) (off : ℕ) : Option (Text × ℕ) :=
  (replay sm path out).map fun b => ((b.resolveVirtual off).1, (b.resolveVirtual off).2.1)

/-! ## The markers of a text -/

/-- The overrides the markers of the lines become. -/
@[grind =] def markersFrom : ℕ → List Line → List LineDirective
  | _, [] => []
  | off, l :: ls =>
    match parseMarker l.body with
    | none => markersFrom (off + l.bytes.length) ls
    | some (n, p) =>
      ⟨off + l.bytes.length, n % 2 ^ 32, p⟩ :: markersFrom (off + l.bytes.length) ls

theorem markersFrom_append (off : ℕ) (ls ks : List Line) :
    markersFrom off (ls ++ ks) = markersFrom off ls ++ markersFrom (off + bytesLength ls) ks := by
  induction ls generalizing off with
  | nil => rfl
  | cons l ls ih =>
    simp only [List.cons_append, markersFrom]
    split <;> simp [ih, Nat.add_assoc]

/-- A marker acts from behind its own line on, inside the lines. -/
theorem mem_markersFrom {off : ℕ} {ls : List Line} {d : LineDirective}
    (h : d ∈ markersFrom off ls) (hpos : ∀ l ∈ ls, 0 < l.bytes.length) :
    off < d.originOffset ∧ d.originOffset ≤ off + bytesLength ls := by
  induction ls generalizing off with
  | nil => exact absurd h (by simp [markersFrom])
  | cons l ls ih =>
    have hl := hpos l (by simp)
    have hrest : ∀ l ∈ ls, 0 < l.bytes.length := fun k hk => hpos k (by simp [hk])
    simp only [markersFrom] at h
    rw [bytesLength_cons]
    split at h
    · have := ih h hrest
      omega
    · rcases List.mem_cons.1 h with rfl | h
      · simp only
        omega
      · have := ih h hrest
        omega

theorem markersFrom_pairwise (off : ℕ) {ls : List Line} (hpos : ∀ l ∈ ls, 0 < l.bytes.length) :
    (markersFrom off ls).Pairwise fun d e => d.originOffset < e.originOffset := by
  induction ls generalizing off with
  | nil => exact .nil
  | cons l ls ih =>
    have hrest : ∀ l ∈ ls, 0 < l.bytes.length := fun k hk => hpos k (by simp [hk])
    simp only [markersFrom]
    split
    · exact ih _ hrest
    · refine List.pairwise_cons.2 ⟨?_, ih _ hrest⟩
      intro d hd
      exact (mem_markersFrom hd hrest).1

theorem replayLines_eq {path out : Text} {bs : List Buffer} {inc : List (SourceLocation × FileID)}
    (off : ℕ) {ls : List Line} (hpos : ∀ l ∈ ls, 0 < l.bytes.length)
    (hsize : off + bytesLength ls < kMaxOffset) (ov : List LineDirective)
    (hov : ∀ d ∈ ov, d.originOffset ≤ off) :
    replayLines ⟨bs ++ [⟨path, out, ov⟩], inc⟩ (bs.length + 1) off ls =
      some ⟨bs ++ [⟨path, out, ov ++ markersFrom off ls⟩], inc⟩ := by
  induction ls generalizing off ov with
  | nil => simp [replayLines, markersFrom]
  | cons l ls ih =>
    have hl := hpos l (by simp)
    have hrest : ∀ l ∈ ls, 0 < l.bytes.length := fun k hk => hpos k (by simp [hk])
    rw [bytesLength_cons] at hsize
    simp only [replayLines, markersFrom]
    cases hm : parseMarker l.body with
    | none =>
      exact ih (off + l.bytes.length) hrest (by omega) ov fun d hd => by
        have := hov d hd
        omega
    | some np =>
      obtain ⟨n, p⟩ := np
      simp only
      have hlast : (ov.getLast?.all fun d => decide (d.originOffset < off + l.bytes.length)) =
          true := by
        cases hx : ov.getLast? with
        | none => rfl
        | some d =>
          have := hov d (List.mem_of_getLast? hx)
          simp only [Option.all_some, decide_eq_true_eq]
          omega
      have hadd : SourceManager.addLineDirective ⟨bs ++ [⟨path, out, ov⟩], inc⟩ (bs.length + 1)
          (off + l.bytes.length) (n % 2 ^ 32) p =
          some ⟨bs ++ [⟨path, out, ov ++ [⟨off + l.bytes.length, n % 2 ^ 32, p⟩]⟩], inc⟩ := by
        simp [SourceManager.addLineDirective, SourceManager.buffer?, hlast]
      rw [if_neg (by omega), hadd]
      simp only
      rw [ih (off + l.bytes.length) hrest (by omega)]
      · simp
      · intro d hd
        rcases List.mem_append.1 hd with hd | hd
        · have := hov d hd
          omega
        · exact Nat.le_of_eq (by rw [List.mem_singleton.1 hd])

/-- **The replay registers the markers.** -/
theorem replay_eq {sm : SourceManager} {path out : Text} (hroom : sm.buffers.length < 255)
    (hsize : out.length < kMaxOffset) :
    replay sm path out = some ⟨path, out, markersFrom 0 (splitLines out)⟩ := by
  simp only [replay, SourceManager.addBufferInMemory, hroom, if_true]
  rw [replayLines_eq 0 (fun l hl => bytes_pos_of_mem hl)
    (by rw [bytesLength_splitLines]; omega) [] (by simp)]
  simp [SourceManager.buffer?]

/-! ## Physical lines -/

theorem lt_of_mem_lineStartsFrom {off o : ℕ} {t : Text} (h : o ∈ lineStartsFrom off t) :
    off < o ∧ o ≤ off + t.length := by
  induction t generalizing off with
  | nil => exact absurd h (by simp [lineStartsFrom])
  | cons c cs ih =>
    have htail : o ∈ lineStartsFrom (off + 1) cs → off < o ∧ o ≤ off + (c :: cs).length := by
      intro hm
      have := ih hm
      rw [List.length_cons]
      omega
    simp only [lineStartsFrom] at h
    split at h
    · rcases List.mem_cons.1 h with rfl | h
      · rw [List.length_cons]
        omega
      · exact htail h
    · exact htail h

/-- A whole line begins one line. -/
theorem length_lineStartsFrom_bytes {l : Line} (off : ℕ) (hn : l.newline = true)
    (hb : '\n' ∉ l.body) : (lineStartsFrom off l.bytes).length = 1 := by
  obtain ⟨b, n⟩ := l
  simp only at hn hb
  subst hn
  simp only [Line.bytes, Line.term, if_true]
  induction b generalizing off with
  | nil => simp [lineStartsFrom]
  | cons c cs ih =>
    have hc : c ≠ '\n' := fun he => hb (by simp [he])
    simp only [List.cons_append, lineStartsFrom, if_neg hc]
    exact ih _ (fun hm => hb (by simp [hm]))

theorem length_lineStartsFrom_flatten {ls : List Line}
    (h : ∀ l ∈ ls, l.newline = true ∧ '\n' ∉ l.body) (off : ℕ) :
    (lineStartsFrom off (ls.map Line.bytes).flatten).length = ls.length := by
  induction ls generalizing off with
  | nil => rfl
  | cons l ls ih =>
    obtain ⟨hn, hb⟩ := h l (by simp)
    simp only [List.map_cons, List.flatten_cons, List.length_cons]
    rw [lineStartsFrom_append, List.length_append, length_lineStartsFrom_bytes off hn hb,
      ih (fun k hk => h k (by simp [hk])), Nat.add_comm]

theorem length_flatten_bytes (ls : List Line) :
    (ls.map Line.bytes).flatten.length = bytesLength ls := by
  simp [bytesLength, List.length_flatten, List.map_map, Function.comp_def]

/-- **The line at which some whole lines end.** -/
theorem lineIdx_flatten (ls : List Line) (h : ∀ l ∈ ls, l.newline = true ∧ '\n' ∉ l.body)
    (r : Text) : lineIdx ((ls.map Line.bytes).flatten ++ r) (bytesLength ls) = ls.length := by
  have hlen := length_flatten_bytes ls
  have hbefore : ((lineStartsFrom 0 (ls.map Line.bytes).flatten).countP
      fun o => decide (o ≤ bytesLength ls)) = ls.length := by
    rw [List.countP_eq_length.2, length_lineStartsFrom_flatten h]
    intro o ho
    have := lt_of_mem_lineStartsFrom ho
    simp only [decide_eq_true_eq]
    omega
  have hbehind : ((lineStartsFrom (0 + (ls.map Line.bytes).flatten.length) r).countP
      fun o => decide (o ≤ bytesLength ls)) = 0 := by
    rw [List.countP_eq_zero]
    intro o ho
    have := lt_of_mem_lineStartsFrom ho
    simp only [decide_eq_true_eq]
    omega
  unfold lineIdx lineOffsets
  rw [lineStartsFrom_append, List.countP_cons, List.countP_append, hbefore, hbehind]
  simp

/-! ## Following the markers -/

/-- A location as it is shown: the file and the line. -/
structure ShownLoc where
  path : Text
  line : ℕ
  deriving DecidableEq, Repr

/-- The location behind line `l` of the output. -/
def ShownLoc.behind (root : Text) (r : ShownLoc) (l : Line) : ShownLoc :=
  match parseMarker l.body with
  | none => ⟨r.path, r.line + 1⟩
  | some (n, p) => ⟨if p = [] then root else p, n % 2 ^ 32⟩

/-- The location behind the lines `ls` of the output. -/
def track (root : Text) (ls : List Line) : ShownLoc := ls.foldl (ShownLoc.behind root) ⟨root, 1⟩

@[simp] theorem track_nil (root : Text) : track root [] = ⟨root, 1⟩ := rfl

@[simp] theorem track_append_singleton (root : Text) (ls : List Line) (l : Line) :
    track root (ls ++ [l]) = (track root ls).behind root l := by
  simp [track]

/-- What `track` has reached, read off the markers: the last one, and
how many lines ago it stood. -/
theorem track_eq (root : Text) (ls : List Line) :
    ((markersFrom 0 ls).getLast? = none ∧ track root ls = ⟨root, ls.length + 1⟩) ∨
      ∃ d j, (markersFrom 0 ls).getLast? = some d ∧ j ≤ ls.length ∧
        d.originOffset = bytesLength (ls.take j) ∧
        track root ls = ⟨if d.virtualPath = [] then root else d.virtualPath,
          d.virtualLine + (ls.length - j)⟩ := by
  induction ls using List.reverseRecOn with
  | nil => exact .inl ⟨rfl, rfl⟩
  | append_singleton ls l ih =>
    rw [markersFrom_append, track_append_singleton, List.length_append]
    cases hm : parseMarker l.body with
    | none =>
      have hnone : markersFrom (0 + bytesLength ls) [l] = [] := by simp [markersFrom, hm]
      rw [hnone, List.append_nil]
      rcases ih with ⟨hlast, ht⟩ | ⟨d, j, hlast, hj, hoff, ht⟩
      · exact .inl ⟨hlast, by simp [ShownLoc.behind, hm, ht]⟩
      · refine .inr ⟨d, j, hlast, by omega, ?_, ?_⟩
        · rw [hoff, List.take_append_of_le_length hj]
        · simp only [ShownLoc.behind, hm, ht, List.length_singleton, ShownLoc.mk.injEq, true_and]
          omega
    | some np =>
      refine .inr ⟨⟨bytesLength ls + l.bytes.length, np.1 % 2 ^ 32, np.2⟩, ls.length + 1, ?_, ?_,
        ?_, ?_⟩
      · simp [markersFrom, hm]
      · simp
      · simp [List.take_of_length_le]
      · simp [ShownLoc.behind, hm]

variable {sm : SourceManager} {root pre rest : Text}

/-- **The replay shows what `track` follows.** At the end of whole
output lines the line map gives the location the markers before it have
led to, whatever the rest of the output. -/
theorem virtualLoc_append (hroom : sm.buffers.length < 255)
    (hsize : (pre ++ rest).length < kMaxOffset) (hpre : AtLineStart pre)
    (hline : (track root (splitLines pre)).line < 2 ^ 32) :
    virtualLoc sm root (pre ++ rest) pre.length =
      some ((track root (splitLines pre)).path, (track root (splitLines pre)).line) := by
  have hwhole : ∀ l ∈ splitLines pre, l.newline = true ∧ '\n' ∉ l.body := fun l hl =>
    ⟨newline_of_atLineStart hpre l hl, body_no_newline_of_mem hl⟩
  have hidx := lineIdx_flatten _ hwhole rest
  rw [flatten_splitLines, bytesLength_splitLines] at hidx
  have hactive : activeDirective (markersFrom 0 (splitLines (pre ++ rest))) pre.length =
      (markersFrom 0 (splitLines pre)).getLast? := by
    rw [splitLines_append hpre, markersFrom_append]
    refine activeDirective_append (markersFrom_pairwise 0 fun l hl => bytes_pos_of_mem hl) ?_ ?_
    · intro d hd
      have := (mem_markersFrom hd fun l hl => bytes_pos_of_mem hl).2
      rwa [Nat.zero_add, bytesLength_splitLines] at this
    · intro d hd
      have := (mem_markersFrom hd fun l hl => bytes_pos_of_mem hl).1
      rwa [Nat.zero_add, bytesLength_splitLines] at this
  rw [virtualLoc, replay_eq hroom hsize, Option.map_some]
  simp only [Buffer.resolveVirtual, getLineCol, hactive, hidx]
  rcases track_eq root (splitLines pre) with ⟨hlast, ht⟩ | ⟨d, j, hlast, hj, hoff, ht⟩
  · rw [hlast, ht]
  · have horigin : lineIdx (pre ++ rest) d.originOffset = j := by
      have hbefore := lineIdx_flatten ((splitLines pre).take j)
        (fun l hl => hwhole l (List.mem_of_mem_take hl))
        (((splitLines pre).drop j |>.map Line.bytes).flatten ++ rest)
      rw [← List.append_assoc, ← List.flatten_append, ← List.map_append, List.take_append_drop,
        flatten_splitLines, List.length_take, Nat.min_eq_left hj] at hbefore
      rw [hoff, hbefore]
    rw [ht] at hline
    simp only [hlast, horigin, ht]
    have hmod : (d.virtualLine + ((splitLines pre).length + 1 - (j + 1))) % 2 ^ 32 =
        d.virtualLine + ((splitLines pre).length - j) := by
      rw [Nat.add_sub_add_right]
      exact Nat.mod_eq_of_lt hline
    rw [hmod]

/-! ## Reading a marker back -/

theorem decimalValue_toDigits (n : ℕ) : decimalValue (Nat.toDigits 10 n) = n := by
  have h : decimalValue (Nat.toDigits 10 n) = Nat.ofDigitChars 10 (Nat.toDigits 10 n) 0 := by
    simp [decimalValue, Nat.ofDigitChars_eq_foldl, Nat.mul_comm]
  rw [h, Nat.ofDigitChars_ten_toDigits]

theorem isWS_of_isDigit {c : Char} (h : isDigit c = true) : isWS c = false := by
  rw [Bool.eq_false_iff]
  intro hw
  simp only [isWS, Bool.or_eq_true, beq_iff_eq] at hw
  rcases hw with rfl | rfl <;> exact absurd h (by decide)

/-- A path a marker can carry between its quotes. -/
def Quotable (p : Text) : Prop := '"' ∉ p ∧ '\n' ∉ p

instance (p : Text) : Decidable (Quotable p) := inferInstanceAs (Decidable (_ ∧ _))

/-- The marker `lineMarker n p` without its newline. -/
def markerBody (n : ℕ) (p : Text) : Text :=
  "#line ".toList ++ Nat.toDigits 10 (n % 2 ^ 32) ++
    (if p = [] then [] else " \"".toList ++ p ++ ['"'])

theorem lineMarker_eq (n : ℕ) (p : Text) :
    Preprocess.lineMarker n p = markerBody n p ++ ['\n'] := rfl

theorem newline_not_mem_markerBody (n : ℕ) {p : Text} (hp : Quotable p) :
    '\n' ∉ markerBody n p := by
  unfold markerBody
  generalize n % 2 ^ 32 = line
  have hdig : '\n' ∉ Nat.toDigits 10 line := fun h =>
    absurd (isDigit_of_mem_toDigits h) (by decide)
  split
  · simp [hdig]
  · simp [hdig, hp.2]

/-- A marker's number is read up to the text behind it. -/
theorem parseMarker_digits (m : ℕ) {r : Text} (hr : r.takeWhile isDigit = []) :
    parseMarker ("#line ".toList ++ (Nat.toDigits 10 m ++ r)) =
      match r.dropWhile isWS with
      | [] => some (m, [])
      | c :: cs =>
        if c = '"' ∧ '"' ∈ cs then some (m, cs.takeWhile (· ≠ '"')) else some (m, []) := by
  have hdigits : ∀ c ∈ Nat.toDigits 10 m, isDigit c = true := fun c => isDigit_of_mem_toDigits
  have hstart : (Nat.toDigits 10 m ++ r).dropWhile isWS = Nat.toDigits 10 m ++ r := by
    cases hd : Nat.toDigits 10 m with
    | nil => exact absurd hd Nat.toDigits_ne_nil
    | cons c cs =>
      have hc := isWS_of_isDigit (hdigits c (by simp [hd]))
      simp [hc]
  have htake : (Nat.toDigits 10 m ++ r).takeWhile isDigit = Nat.toDigits 10 m := by
    rw [List.takeWhile_append_of_pos hdigits, hr, List.append_nil]
  have hdrop : (Nat.toDigits 10 m ++ r).dropWhile isDigit = r := by
    have := @List.takeWhile_append_dropWhile _ isDigit r
    rw [hr, List.nil_append] at this
    rw [List.dropWhile_append_of_pos hdigits, this]
  have hskip : ("#line ".toList ++ (Nat.toDigits 10 m ++ r)).drop 6 = Nat.toDigits 10 m ++ r := rfl
  simp only [parseMarker]
  rw [if_pos (List.isPrefixOf_iff_prefix.2 (List.prefix_append _ _)), hskip, hstart, htake, hdrop, if_neg Nat.toDigits_ne_nil, decimalValue_toDigits]

/-- **A marker is read back as it was written.** -/
theorem parseMarker_markerBody (n : ℕ) {p : Text} (hp : Quotable p) :
    parseMarker (markerBody n p) = some (n % 2 ^ 32, p) := by
  unfold markerBody
  rw [List.append_assoc]
  by_cases he : p = []
  · rw [if_pos he, parseMarker_digits _ (by rfl), he]
    rfl
  · have hname : (p ++ ['"']).takeWhile (fun c => decide (c ≠ '"')) = p := by
      rw [List.takeWhile_append_of_pos]
      · simp
      · intro c hc
        have : c ≠ '"' := fun h => hp.1 (h ▸ hc)
        simpa using this
    have hblank : (" \"".toList ++ p ++ ['"']).dropWhile isWS = '"' :: (p ++ ['"']) := rfl
    rw [if_neg he, parseMarker_digits _ (by rfl), hblank]
    simp only [hname]
    simp

variable {out : Text}

theorem atLineStart_lineMarker (out : Text) (n : ℕ) (p : Text) :
    AtLineStart (out ++ Preprocess.lineMarker n p) := atLineStart_append out (markerBody n p)

/-- Behind a marker stands the location it names. -/
theorem track_lineMarker (root : Text) (h : AtLineStart out) (n : ℕ) {p : Text}
    (hp : Quotable p) :
    track root (splitLines (out ++ Preprocess.lineMarker n p)) =
      ⟨if p = [] then root else p, n % 2 ^ 32⟩ := by
  rw [lineMarker_eq, splitLines_append_line h (newline_not_mem_markerBody n hp),
    track_append_singleton]
  simp [ShownLoc.behind, parseMarker_markerBody n hp]

/-- Behind a line that is no marker stands the next line. -/
theorem track_line (root : Text) (h : AtLineStart out) {b : Text} (hb : '\n' ∉ b)
    (hm : parseMarker b = none) :
    track root (splitLines (out ++ (b ++ ['\n']))) =
      ⟨(track root (splitLines out)).path, (track root (splitLines out)).line + 1⟩ := by
  rw [splitLines_append_line h hb, track_append_singleton]
  simp [ShownLoc.behind, hm]

end Driver

end Nslc
