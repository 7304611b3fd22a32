import Nslc.Preprocess.CommentPairs
/-!
# Preprocessor — what comments can influence

Two runs side by side, over files that differ inside comments only. The
line machine sees comments line by line: it reads a line as if it began
outside of them, and a directive's operands with the comments that stand
in them. Along a run in which neither happens (`opaqueStep`) the runs
report the same, define the same macros, succeed or fail together, and
write outputs that differ inside comments only.
-/

namespace Nslc

namespace Preprocess

/-! ## Directive lines -/

/-- The directives that do not read their operands to the end. -/
def settledBy : ParsedDirective → Bool
  | .els | .endif | .unknown _ => true
  | .incl filename _ => filename != []
  | _ => false

/-- A directive line whose comments stand behind what is read of it. -/
def directivePlain (text : Text) : Bool :=
  !hasComment .code text ||
    settledBy (classifyLine (outsidePart .code text))

/-- The part in front of a comment ends with the comment's opening. -/
theorem outsidePart_opening {r : Region} {t : Text} (hr : r.inComment = false)
    (h : hasComment r t = true) :
    ∃ a d, outsidePart r t = a ++ [d] ∧ (d = '/' ∨ d = '*') := by
  induction t generalizing r with
  | nil => cases h
  | cons c cs ih =>
    rw [hasComment, hr, Bool.false_or] at h
    rw [outsidePart, if_neg (by simp [hr])]
    cases hnext : (r.next c).inComment with
    | false =>
      obtain ⟨a, d, heq, hd⟩ := ih hnext h
      exact ⟨c :: a, d, by rw [heq]; rfl, hd⟩
    | true =>
      have hempty : outsidePart (r.next c) cs = [] := by
        cases cs with
        | nil => rfl
        | cons d ds => rw [outsidePart, if_pos hnext]
      refine ⟨[], c, by rw [hempty]; rfl, ?_⟩
      -- only these two lead into a comment
      by_contra hne
      rw [not_or] at hne
      cases r <;> simp_all [Region.next, Region.inComment] <;> split_ifs at hnext

section Append

variable {p : Char → Bool} {x suf : Text} {d : Char}

theorem takeWhile_append_stop (hd : d ∈ x) (hp : p d = false) :
    (x ++ suf).takeWhile p = x.takeWhile p ∧ (x ++ suf).dropWhile p = x.dropWhile p ++ suf := by
  induction x with
  | nil => cases hd
  | cons c cs ih =>
    by_cases hc : p c = true
    · have hmem : d ∈ cs := by
        rcases List.mem_cons.1 hd with rfl | hmem
        · rw [hp] at hc
          cases hc
        · exact hmem
      obtain ⟨h₁, h₂⟩ := ih hmem
      simp only [List.cons_append, List.takeWhile_cons_of_pos hc, List.dropWhile_cons_of_pos hc, h₁,
        h₂, and_self]
    · simp only [List.cons_append, List.takeWhile_cons_of_neg hc, List.dropWhile_cons_of_neg hc,
        and_self]

theorem dropEndWhile_append_stop (hp : p d = false) :
    dropEndWhile p (x ++ [d] ++ suf) = x ++ [d] ++ dropEndWhile p suf := by
  have hrev : ((x ++ [d] ++ suf).reverse).dropWhile p =
      (suf.reverse).dropWhile p ++ (x ++ [d]).reverse := by
    rw [List.reverse_append, List.dropWhile_append]
    have hstop : ((x ++ [d]).reverse).dropWhile p = (x ++ [d]).reverse := by
      simp [hp]
    split
    · next he => rw [hstop, List.isEmpty_iff.1 he, List.nil_append]
    · rfl
  rw [dropEndWhile, hrev, dropEndWhile, List.reverse_append, List.reverse_reverse]

end Append

/-- A file name that is complete stays as it is. -/
theorem includeOperand_append {x : Text} {filename : Text} {isAngle : Bool} (z : Text)
    (h : includeOperand x = .incl filename isAngle) (hne : filename ≠ []) :
    includeOperand (x ++ z) = .incl filename isAngle := by
  cases x with
  | nil =>
    obtain ⟨rfl, -⟩ := ParsedDirective.incl.inj h
    exact absurd rfl hne
  | cons c cs =>
    have hclose : ∀ close : Char, (if close ∈ cs then cs.takeWhile (· ≠ close) else []) = filename →
        (if close ∈ cs ++ z then (cs ++ z).takeWhile (· ≠ close) else []) = filename := by
      intro close hf
      split at hf
      · next hmem =>
        rw [if_pos (List.mem_append_left z hmem), (takeWhile_append_stop hmem (by simp)).1]
        exact hf
      · exact absurd hf.symm hne
    by_cases hq : c = '"'
    · simp only [includeOperand, List.cons_append, if_pos hq] at h ⊢
      obtain ⟨hf, rfl⟩ := ParsedDirective.incl.inj h
      rw [hclose '"' hf]
    · by_cases ha : c = '<'
      · simp only [includeOperand, List.cons_append, if_neg hq, if_pos ha] at h ⊢
        obtain ⟨hf, rfl⟩ := ParsedDirective.incl.inj h
        rw [hclose '>' hf]
      · simp only [includeOperand, if_neg hq, if_neg ha] at h
        obtain ⟨hf, -⟩ := ParsedDirective.incl.inj h
        exact absurd hf.symm hne

theorem dropWhile_append_single {p : Char → Bool} {x : Text} {d : Char} (hp : p d = false) :
    (x ++ [d]).dropWhile p = x.dropWhile p ++ [d] := by
  rw [List.dropWhile_append]
  split
  · next he => simp [List.isEmpty_iff.1 he, hp]
  · rfl

theorem trim_append_stop {x suf : Text} {d : Char} (hd : isWS d = false) :
    trim (x ++ [d] ++ suf) = trim (x ++ [d]) ++ dropEndWhile isWS suf := by
  have hwhole : dropEndWhile isWS (x.dropWhile isWS ++ [d] ++ suf) = _ :=
    dropEndWhile_append_stop hd
  have hpart : dropEndWhile isWS (x.dropWhile isWS ++ [d] ++ []) = _ :=
    dropEndWhile_append_stop hd
  have hnil : dropEndWhile isWS [] = [] := rfl
  simp only [hnil, List.append_nil] at hpart
  rw [trim, trim, (takeWhile_append_stop (List.mem_append_right x (List.mem_singleton_self d)) hd).2,
    dropWhile_append_single hd, hwhole, hpart]

/-- A directive read in front of a byte that is not blank. -/
theorem directiveOf_append {kw x suf : Text} {d : Char} (hd : isWS d = false)
    (h : settledBy (directiveOf kw (x ++ [d])) = true) :
    directiveOf kw (x ++ [d] ++ suf) = directiveOf kw (x ++ [d]) := by
  by_cases hincl : kw = "include".toList
  · simp only [directiveOf, if_pos hincl] at h ⊢
    rw [trim_append_stop hd]
    cases hop : includeOperand (trim (x ++ [d])) with
    | incl filename isAngle =>
      rw [hop] at h
      exact includeOperand_append _ hop (by simpa [settledBy] using h)
    | _ =>
      unfold includeOperand at hop
      split at hop
      · cases hop
      · split_ifs at hop
  · simp only [directiveOf, if_neg hincl] at h ⊢
    split_ifs at h ⊢ with h₁ h₂ h₃ h₄ h₅ h₆ h₇ h₈
    · exact absurd h (by simp [settledBy, defineOperand])
    all_goals first | rfl | exact absurd h (by simp [settledBy])

theorem readIdent_append_stop {y suf : Text} {d : Char} (hd : isIdentBody d = false) :
    readIdent (y ++ [d] ++ suf) = readIdent (y ++ [d]) := by
  have htake : (y ++ [d] ++ suf).takeWhile isIdentBody = _ :=
    (takeWhile_append_stop (List.mem_append_right y (List.mem_singleton_self d)) hd).1
  cases y with
  | nil =>
    simp only [List.nil_append, List.cons_append] at htake ⊢
    rw [readIdent, readIdent, htake]
  | cons e es =>
    simp only [List.cons_append] at htake ⊢
    rw [readIdent, readIdent, htake]

theorem drop_readIdent {t : Text} (h : readIdent t ≠ []) :
    t.drop (readIdent t).length = t.dropWhile isIdentBody := by
  have hword : readIdent t = t.takeWhile isIdentBody := by
    unfold readIdent at h ⊢
    split
    · rfl
    · split
      · rfl
      · next hstart => simp [hstart] at h
  have hcut : (t.takeWhile isIdentBody ++ t.dropWhile isIdentBody).drop
      (t.takeWhile isIdentBody).length = t.dropWhile isIdentBody := List.drop_left
  rw [List.takeWhile_append_dropWhile] at hcut
  rw [hword, hcut]

/-- **A settled directive is not changed by what follows.** -/
theorem classifyLine_append {x suf : Text} {d : Char} (hid : isIdentBody d = false)
    (hws : isWS d = false) (hhash : d ≠ '#') (h : settledBy (classifyLine (x ++ [d])) = true) :
    classifyLine (x ++ [d] ++ suf) = classifyLine (x ++ [d]) := by
  cases x with
  | nil =>
    simp only [List.nil_append, classifyLine, if_neg hhash] at h
    cases h
  | cons c xs =>
    by_cases hc : c = '#'
    · simp only [List.cons_append, classifyLine, if_pos hc] at h ⊢
      have hmem : d ∈ xs ++ [d] := List.mem_append_right xs (List.mem_singleton_self d)
      rw [dropWhile_append_single hws] at h ⊢
      rw [(takeWhile_append_stop hmem hws).2, dropWhile_append_single hws,
        readIdent_append_stop hid]
      by_cases hkw : readIdent (xs.dropWhile isWS ++ [d]) = []
      · rw [if_pos hkw, if_pos hkw]
      · have hdrop := drop_readIdent hkw
        have hlen : (readIdent (xs.dropWhile isWS ++ [d])).length ≤
            (xs.dropWhile isWS ++ [d]).length := by
          by_contra hlt
          rw [List.drop_eq_nil_of_le (by omega), dropWhile_append_single hid] at hdrop
          simp at hdrop
        rw [if_neg hkw] at h ⊢
        rw [if_neg hkw, List.drop_append_of_le_length hlen, hdrop, dropWhile_append_single hid]
        rw [hdrop, dropWhile_append_single hid] at h
        exact directiveOf_append hws h
    · simp only [List.cons_append, classifyLine, if_neg hc] at h
      cases h

/-- **A directive line and its variant** are the same directive. -/
theorem classifyLine_pair {t t' : Text} (h : Recommented .code .code t t')
    (hplain : directivePlain t = true) : classifyLine t' = classifyLine t := by
  rw [directivePlain, Bool.or_eq_true, Bool.not_eq_true'] at hplain
  rcases hplain with hno | hsettled
  · rw [h.eq_of_no_comment hno]
  · cases hc : hasComment .code t with
    | false => rw [h.eq_of_no_comment hc]
    | true =>
      obtain ⟨a, d, heq, hd⟩ := outsidePart_opening rfl hc
      obtain ⟨⟨suf, hsuf⟩, ⟨suf', hsuf'⟩⟩ := h.outsidePart_prefix
      rw [heq] at hsettled hsuf hsuf'
      have hstop : isIdentBody d = false ∧ isWS d = false ∧ d ≠ '#' := by
        rcases hd with rfl | rfl <;> decide
      rw [← hsuf, ← hsuf', classifyLine_append hstop.1 hstop.2.1 hstop.2.2 hsettled,
        classifyLine_append hstop.1 hstop.2.1 hstop.2.2 hsettled]

/-! ## Lines that comments do not influence -/

/-- The line ends outside strings and comments, and is a directive that
does not read its comments, or text whose references leave its comments
where they are. -/
def opaqueLine (E : PPExpression) (macros : MacroTable) (emitting : Bool) (l : Line) : Bool :=
  (!l.newline || decide (Region.code.scan l.bytes = .code)) &&
    if (stripCR l.body).head? = some '#' then directivePlain (stripCR l.body)
    else !emitting || !hasComment .code (stripCR l.body) || plainRefs E macros (stripCR l.body)

/-- The line about to be read is such a line. -/
def opaqueStep (env : Env) (s : State) : Bool :=
  match s.includeStack with
  | [] => true
  | f :: _ =>
    (readLine (s.sm.getBuffer f.fid) f.cursor).all
      (opaqueLine env.expr s.macros (isEmitting f.condStack))

/-- A line and its variant. -/
structure LinePair (l l' : Line) : Prop where
  newline : l'.newline = l.newline
  length : l'.bytes.length = l.bytes.length
  text : Recommented .code .code (stripCR l.body) (stripCR l'.body)

theorem LinePair.term {l l' : Line} (h : LinePair l l') : l'.term = l.term := by
  rw [Line.term, Line.term, h.newline]

theorem stripCR_pair {l l' : Line} (h : Recommented .code .code l.body l'.body)
    (hbreak : KeepsBreak l l') : Recommented .code .code (stripCR l.body) (stripCR l'.body) := by
  unfold stripCR
  by_cases hcr : l.body.getLast? = some '\r'
  · rw [if_pos hcr, if_pos (hbreak.2 hcr)]
    exact h.dropLast
  · rw [if_neg hcr, if_neg fun hcr' => hcr (hbreak.1 hcr')]
    exact h

theorem classifyLine_of_head? {t : Text} (h : t.head? ≠ some '#') :
    classifyLine t = .passthrough := by
  cases t with
  | nil => rfl
  | cons c cs =>
    rw [classifyLine, if_neg]
    rintro rfl
    exact h rfl

theorem lineDirective_pair {E : PPExpression} {macros : MacroTable} {emitting : Bool} {l l' : Line}
    (h : LinePair l l') (ho : opaqueLine E macros emitting l = true) :
    lineDirective l' = lineDirective l := by
  rw [opaqueLine, Bool.and_eq_true] at ho
  by_cases hhash : (stripCR l.body).head? = some '#'
  · rw [if_pos hhash] at ho
    exact classifyLine_pair h.text ho.2
  · have hhash' : (stripCR l'.body).head? ≠ some '#' := by
      rw [h.text.head?_eq rfl]
      exact hhash
    rw [lineDirective, lineDirective, classifyLine_of_head? hhash, classifyLine_of_head? hhash']

/-! ## Two runs side by side -/

/-- The outputs are made of pieces that differ inside comments only. -/
def OutputsAgree (o o' : Text) : Prop :=
  ∃ ps : List (Text × Text), o = (ps.map Prod.fst).flatten ∧ o' = (ps.map Prod.snd).flatten ∧
    ∀ p ∈ ps, Recommented .code .code p.1 p.2

theorem OutputsAgree.append {o o' a a' : Text} (h : OutputsAgree o o')
    (ha : Recommented .code .code a a') : OutputsAgree (o ++ a) (o' ++ a') := by
  obtain ⟨ps, rfl, rfl, hps⟩ := h
  refine ⟨ps ++ [(a, a')], by simp, by simp, ?_⟩
  intro p hp
  rcases List.mem_append.1 hp with hp | hp
  · exact hps p hp
  · rw [List.mem_singleton.1 hp]
    exact ha

/-- A registered file and its variant. -/
structure SameBuffer (b b' : Buffer) : Prop where
  path : b'.path = b.path
  lineOverrides : b'.lineOverrides = b.lineOverrides
  bytes : CommentVariant b.bytes b'.bytes

structure SameFiles (sm sm' : SourceManager) : Prop where
  buffers : List.Forall₂ SameBuffer sm.buffers sm'.buffers
  includeStack : sm'.includeStack = sm.includeStack

/-- The states agree in all but the bytes of comments. -/
structure Alike (s s' : State) : Prop where
  files : SameFiles s.sm s'.sm
  diags : s'.diags = s.diags
  macros : s'.macros = s.macros
  includeStack : s'.includeStack = s.includeStack
  aborted : s'.aborted = s.aborted
  output : OutputsAgree s.output s'.output

/-- The same files exist, with the same text up to comments, and nothing
else differs. -/
structure EnvVariant (env env' : Env) : Prop where
  expr : env'.expr = env.expr
  quotePaths : env'.quotePaths = env.quotePaths
  anglePaths : env'.anglePaths = env.anglePaths
  missing : ∀ p, env.files p = none → env'.files p = none
  files : ∀ p t, env.files p = some t → ∃ t', env'.files p = some t' ∧ CommentVariant t.text t'.text

/-! ### Files -/

section Files

variable {sm sm' : SourceManager}

/-- Both have the file, or neither has. -/
theorem SameFiles.buffer? (h : SameFiles sm sm') (f : ℕ) :
    (sm.buffer? f = none ∧ sm'.buffer? f = none) ∨
      ∃ b b', sm.buffer? f = some b ∧ sm'.buffer? f = some b' ∧ SameBuffer b b' := by
  unfold SourceManager.buffer?
  by_cases h0 : f = 0
  · rw [if_pos h0, if_pos h0]
    exact .inl ⟨rfl, rfl⟩
  · rw [if_neg h0, if_neg h0]
    have hlen := h.buffers.length_eq
    by_cases hlt : f - 1 < sm.buffers.length
    · have hlt' : f - 1 < sm'.buffers.length := by omega
      refine .inr ⟨_, _, List.getElem?_eq_getElem hlt, List.getElem?_eq_getElem hlt', ?_⟩
      exact h.buffers.get hlt hlt'
    · exact .inl ⟨List.getElem?_eq_none (by omega), List.getElem?_eq_none (by omega)⟩

theorem SameFiles.getPath (h : SameFiles sm sm') (f : FileID) : sm'.getPath f = sm.getPath f := by
  unfold SourceManager.getPath
  rcases h.buffer? f with ⟨h₁, h₂⟩ | ⟨b, b', h₁, h₂, hb⟩
  · rw [h₁, h₂]
  · rw [h₁, h₂, Option.map_some, Option.map_some, hb.path]

theorem SameFiles.getBuffer (h : SameFiles sm sm') (f : FileID) :
    CommentVariant (sm.getBuffer f) (sm'.getBuffer f) := by
  unfold SourceManager.getBuffer
  rcases h.buffer? f with ⟨h₁, h₂⟩ | ⟨b, b', h₁, h₂, hb⟩
  · rw [h₁, h₂]
    exact commentVariant_nil
  · rw [h₁, h₂]
    exact hb.bytes

theorem SameFiles.findFileIDByPath (h : SameFiles sm sm') (path : Text) :
    sm'.findFileIDByPath path = sm.findFileIDByPath path := by
  have hpaths : ∀ {bs bs' : List Buffer}, List.Forall₂ SameBuffer bs bs' →
      (bs'.findIdx? fun b => b.path = path) = bs.findIdx? fun b => b.path = path := by
    intro bs bs' hbs
    induction hbs with
    | nil => rfl
    | cons hb _ ih => simp only [List.findIdx?_cons, hb.path, ih]
  rw [SourceManager.findFileIDByPath, SourceManager.findFileIDByPath, hpaths h.buffers]

theorem forall₂_set {α β : Type} {R : α → β → Prop} {l : List α} {l' : List β}
    (h : List.Forall₂ R l l') {a : α} {b : β} (hab : R a b) (i : ℕ) :
    List.Forall₂ R (l.set i a) (l'.set i b) := by
  induction h generalizing i with
  | nil => exact .nil
  | cons hcd hrest ih =>
    cases i with
    | zero => exact .cons hab hrest
    | succ i => exact .cons hcd (ih i)

theorem SameFiles.addLineDirective (h : SameFiles sm sm') (f : FileID) (off n : ℕ) (p : Text) :
    (sm.addLineDirective f off n p = none ∧ sm'.addLineDirective f off n p = none) ∨
      ∃ t t', sm.addLineDirective f off n p = some t ∧ sm'.addLineDirective f off n p = some t' ∧
        SameFiles t t' := by
  unfold SourceManager.addLineDirective
  rcases h.buffer? f with ⟨h₁, h₂⟩ | ⟨b, b', h₁, h₂, hb⟩
  · rw [h₁, h₂]
    exact .inl ⟨rfl, rfl⟩
  · simp only [h₁, h₂, hb.lineOverrides]
    split
    · refine .inr ⟨_, _, rfl, rfl, ?_, h.includeStack⟩
      apply forall₂_set h.buffers
      exact ⟨hb.path, rfl, hb.bytes⟩
    · exact .inl ⟨rfl, rfl⟩

/-- Both loads fail alike, or find the same file. -/
theorem SameFiles.loadFile {env env' : Env} (h : SameFiles sm sm') (henv : EnvVariant env env')
    (path : Text) :
    (loadFile env sm path = .cannotOpen ∧ loadFile env' sm' path = .cannotOpen) ∨
      (Preprocess.loadFile env sm path = .exhausted ∧
        Preprocess.loadFile env' sm' path = .exhausted) ∨
      ∃ t t' fid, Preprocess.loadFile env sm path = .ok t fid ∧
        Preprocess.loadFile env' sm' path = .ok t' fid ∧ SameFiles t t' := by
  unfold Preprocess.loadFile
  rw [h.findFileIDByPath path]
  cases sm.findFileIDByPath path with
  | some fid => exact .inr (.inr ⟨sm, sm', fid, rfl, rfl, h⟩)
  | none =>
    cases hf : env.files path with
    | none =>
      rw [henv.missing path hf]
      exact .inl ⟨rfl, rfl⟩
    | some t =>
      obtain ⟨t', hf', ht⟩ := henv.files path t hf
      have hlen := h.buffers.length_eq
      rw [hf']
      simp only [SourceManager.addBufferInMemory, ← hlen]
      split
      · next hadd =>
        split at hadd
        · cases hadd
        · next hfull =>
          simp only [if_neg hfull]
          exact .inr (.inl ⟨trivial, trivial⟩)
      · next hadd =>
        split at hadd
        · next hfree =>
          obtain ⟨rfl, rfl⟩ := Prod.mk.inj (Option.some.inj hadd)
          simp only [if_pos hfree]
          exact .inr (.inr ⟨_, _, _, rfl, rfl,
            List.rel_append h.buffers (.cons ⟨rfl, rfl, ht⟩ .nil), h.includeStack⟩)
        · cases hadd

end Files

/-! ### Handlers -/

section Handlers

variable {s s' : State}

theorem Alike.emit (h : Alike s s') {a a' : Text} (ha : Recommented .code .code a a') :
    Alike (s.emit a) (s'.emit a') :=
  ⟨h.files, h.diags, h.macros, h.includeStack, h.aborted, h.output.append ha⟩

theorem Alike.emit_same (h : Alike s s') (a : Text) : Alike (s.emit a) (s'.emit a) :=
  h.emit (recommented_refl _ a)

theorem Alike.addDiags (h : Alike s s') (ds : List Diag) :
    Alike (s.addDiags ds) (s'.addDiags ds) := by
  refine ⟨h.files, ?_, h.macros, h.includeStack, h.aborted, h.output⟩
  show s'.diags ++ ds = s.diags ++ ds
  rw [h.diags]

theorem Alike.report (h : Alike s s') (loc : SourceLocation) (m : Message) :
    Alike (s.report loc m) (s'.report loc m) := h.addDiags _

theorem Alike.abort (h : Alike s s') (a : Abort) : Alike (s.abort a) (s'.abort a) :=
  ⟨h.files, h.diags, h.macros, h.includeStack, rfl, h.output⟩

theorem Alike.withMacros (h : Alike s s') (m : MacroTable) :
    Alike { s with macros := m } { s' with macros := m } :=
  ⟨h.files, h.diags, rfl, h.includeStack, h.aborted, h.output⟩

theorem Alike.withStack (h : Alike s s') (fs : List Frame) :
    Alike { s with includeStack := fs } { s' with includeStack := fs } :=
  ⟨h.files, h.diags, h.macros, rfl, h.aborted, h.output⟩

theorem Alike.withFiles (h : Alike s s') {sm sm' : SourceManager} (hsm : SameFiles sm sm') :
    Alike { s with sm := sm } { s' with sm := sm' } :=
  ⟨hsm, h.diags, h.macros, h.includeStack, h.aborted, h.output⟩

theorem Alike.passLine {E : PPExpression} {t t' : Text} (h : Alike s s')
    (ht : Recommented .code .code t t') (hnl : '\n' ∉ t)
    (hplain : hasComment .code t = false ∨ plainRefs E s.macros t = true) (loc : SourceLocation)
    {term : Text} (hterm : term = [] ∨ term = ['\n']) :
    Alike (passLine E s t loc term) (passLine E s' t' loc term) := by
  rcases hplain with hno | hrefs
  · rw [ht.eq_of_no_comment hno, Preprocess.passLine, Preprocess.passLine, h.macros]
    exact (h.addDiags _).emit_same _
  · have hpair : SplicedPair (splice E s.macros t loc) _ := splice_pair ht hnl hrefs
    have hlen := hpair.text.length_eq
    have hscans : scanForHelperOnPassthrough (splice E s.macros t' loc).1 loc =
          scanForHelperOnPassthrough (splice E s.macros t loc).1 loc ∧
        scanForFloatOnPassthrough (splice E s.macros t' loc).1 loc =
          scanForFloatOnPassthrough (splice E s.macros t loc).1 loc := by
      simp only [scanForHelperOnPassthrough, scanForFloatOnPassthrough, hlen]
      exact ⟨scanForHelperUpto_pair _ _ _ hpair.text hpair.newline,
        scanForFloatUpto_pair _ _ _ hpair.text hpair.newline⟩
    simp only [Preprocess.passLine, h.macros, hpair.reports, hscans.1, hscans.2]
    apply (h.addDiags _).emit
    rcases hterm with rfl | rfl
    · rw [List.append_nil, List.append_nil]
      exact hpair.text
    · exact hpair.text.append_newline

theorem Alike.handleDefine (h : Alike s s') (name body : Text) (loc : SourceLocation) :
    Alike (handleDefine s name body loc) (handleDefine s' name body loc) := by
  simp only [Preprocess.handleDefine, h.macros]
  split
  · exact h.report _ _
  · cases (s.macros.lookup name).bind fun d => d.definingLoc with
    | none => exact h.withMacros _
    | some prev => exact (h.withMacros _).addDiags _

theorem Alike.handleUndef (h : Alike s s') (name : Text) (loc : SourceLocation) :
    Alike (handleUndef s name loc) (handleUndef s' name loc) := by
  simp only [Preprocess.handleUndef, h.macros]
  split
  · exact h.report _ _
  · exact h.withMacros _

theorem Alike.handleLine (h : Alike s s') (E : PPExpression) (fid : FileID) (operand : Text)
    (loc : SourceLocation) (lineEnd : ℕ) :
    Alike (handleLine E s fid operand loc lineEnd) (handleLine E s' fid operand loc lineEnd) := by
  simp only [Preprocess.handleLine, h.macros]
  have hd := h.addDiags (splice E s.macros operand loc).2
  cases parseLineOperand (splice E s.macros operand loc).1 with
  | notPositive => exact hd.report _ _
  | unterminated => exact hd.report _ _
  | ok lineNo path trailing =>
    have ht : Alike
        (if trailing then (s.addDiags (splice E s.macros operand loc).2).report loc .lineTrailing
          else s.addDiags (splice E s.macros operand loc).2)
        (if trailing then (s'.addDiags (splice E s.macros operand loc).2).report loc .lineTrailing
          else s'.addDiags (splice E s.macros operand loc).2) := by
      split
      · exact hd.report _ _
      · exact hd
    dsimp only
    split
    · exact ht.abort _
    · rcases ht.files.addLineDirective fid lineEnd (lineNo % 2 ^ 32) (path.getD []) with
        ⟨h₁, h₂⟩ | ⟨sm, sm', h₁, h₂, hsm⟩
      · rw [h₁, h₂]
        exact ht.abort _
      · rw [h₁, h₂]
        exact (ht.withFiles hsm).emit_same _

variable {env env' : Env}

theorem EnvVariant.fileExists (h : EnvVariant env env') : env'.fileExists = env.fileExists := by
  funext p
  unfold Env.fileExists
  cases hf : env.files p with
  | none => rw [h.missing p hf]
  | some t =>
    obtain ⟨t', hf', -⟩ := h.files p t hf
    rw [hf']
    rfl

theorem EnvVariant.resolve (h : EnvVariant env env') (filename : Text) (isAngle : Bool)
    (includer : Text) : env'.resolve filename isAngle includer = env.resolve filename isAngle includer := by
  simp only [Env.resolve, Env.findAngle, Env.findQuote, h.fileExists, h.quotePaths, h.anglePaths]

theorem Alike.includeTrace (h : Alike s s') (path : Text) : includeTrace s' path = includeTrace s path := by
  simp only [Preprocess.includeTrace, h.includeStack, h.files.getPath]

theorem Alike.handleInclude (h : Alike s s') (henv : EnvVariant env env') (fid : FileID)
    (filename : Text) (isAngle : Bool) (loc : SourceLocation) :
    Alike (handleInclude env s fid filename isAngle loc)
      (handleInclude env' s' fid filename isAngle loc) := by
  simp only [Preprocess.handleInclude, henv.resolve, h.files.getPath, h.includeStack]
  split
  · exact h.report _ _
  · split
    · exact h.report _ _
    · next path _ =>
      split
      · rw [h.includeTrace]
        exact h.report _ _
      · unfold openInclude
        rcases h.files.loadFile henv path with ⟨h₁, h₂⟩ | ⟨h₁, h₂⟩ | ⟨sm, sm', inner, h₁, h₂, hsm⟩
        · rw [h₁, h₂]
          exact h.report _ _
        · rw [h₁, h₂]
          exact h.abort _
        · rw [h₁, h₂]
          dsimp only
          rw [h.includeStack, hsm.getPath]
          have hpush : SameFiles (sm.pushIncludeFrame loc inner) (sm'.pushIncludeFrame loc inner) :=
            ⟨hsm.buffers, congrArg ((loc, inner) :: ·) hsm.includeStack⟩
          exact ((h.withFiles hpush).withStack (⟨inner, 0, 1, []⟩ :: s.includeStack)).emit_same _

end Handlers

/-! ### Steps -/

section Steps

variable {env env' : Env} {s s' : State} {f : Frame} {fs : List Frame} {l l' : Line}

theorem term_cases (l : Line) : l.term = [] ∨ l.term = ['\n'] := by
  unfold Line.term
  split
  · exact .inr rfl
  · exact .inl rfl

theorem Alike.dispatch (h : Alike s s') (henv : EnvVariant env env') (hl : LinePair l l')
    (hnl : '\n' ∉ stripCR l.body)
    (ho : opaqueLine env.expr s.macros (isEmitting f.condStack) l = true) (reports : List Diag) :
    Alike (dispatch env s f l reports) (dispatch env' s' f l' reports) := by
  have hadvance : (f.advance l').cursor = (f.advance l).cursor := by
    simp only [Frame.advance, hl.length]
  have hdir := lineDirective_pair hl ho
  simp only [Preprocess.dispatch, hdir, hl.term, henv.expr, hadvance]
  cases hd : lineDirective l with
  | passthrough =>
    dsimp only
    split
    · next he =>
      have hhash : (stripCR l.body).head? ≠ some '#' := by
        intro hhash
        obtain ⟨cs, hcs⟩ := eq_cons_of_head? hhash
        rw [lineDirective, hcs] at hd
        exact classifyLine_hash_ne cs hd
      rw [opaqueLine, Bool.and_eq_true, if_neg hhash, he] at ho
      refine h.passLine hl.text hnl ?_ f.loc (term_cases l)
      simpa using ho.2
    · exact h.emit_same _
  | define name body =>
    dsimp only
    split
    · exact (h.handleDefine _ _ _).emit_same _
    · exact h.emit_same _
  | undef name =>
    dsimp only
    split
    · exact (h.handleUndef _ _).emit_same _
    · exact h.emit_same _
  | ifdef name => exact (h.addDiags _).emit_same _
  | ifndef name => exact (h.addDiags _).emit_same _
  | ifExpr e => exact (h.addDiags _).emit_same _
  | els => exact (h.addDiags _).emit_same _
  | endif => exact (h.addDiags _).emit_same _
  | line operand =>
    dsimp only
    split
    · exact h.handleLine _ _ _ _ _
    · exact h.emit_same _
  | incl filename isAngle =>
    dsimp only
    split
    · exact h.handleInclude henv _ _ _ _
    · exact h.emit_same _
  | unknown name =>
    dsimp only
    split
    · exact (h.report _ _).emit_same _
    · exact h.emit_same _

theorem Alike.stepLine (h : Alike s s') (henv : EnvVariant env env') (hl : LinePair l l')
    (hnl : '\n' ∉ stripCR l.body)
    (ho : opaqueLine env.expr s.macros (isEmitting f.condStack) l = true) :
    Alike (stepLine env s f fs l) (stepLine env' s' f fs l') := by
  have hdir := lineDirective_pair hl ho
  have hnext : f.next env' s' l' = f.next env s l := by
    simp only [Frame.next, Frame.advance, hl.length, hdir, henv.expr, h.macros]
  have hcond : condStep env'.expr s'.macros f.loc (lineDirective l') f.condStack =
      condStep env.expr s.macros f.loc (lineDirective l) f.condStack := by
    rw [henv.expr, h.macros, hdir]
  rw [Preprocess.stepLine, Preprocess.stepLine, hnext, hcond]
  exact (h.withStack (f.next env s l :: fs)).dispatch henv hl hnl ho _

theorem Alike.stepEof (h : Alike s s') : Alike (stepEof s f fs) (stepEof s' f fs) := by
  unfold Preprocess.stepEof
  have hd := (h.addDiags (f.condStack.reverse.map fun cf =>
    ⟨.error, some cf.openerLoc, .unterminatedIf, none⟩)).withStack fs
  cases fs with
  | nil => exact hd
  | cons outer rest =>
    have hpop : (s.sm.popIncludeFrame = none ∧ s'.sm.popIncludeFrame = none) ∨
        ∃ sm sm', s.sm.popIncludeFrame = some sm ∧ s'.sm.popIncludeFrame = some sm' ∧
          SameFiles sm sm' := by
      simp only [SourceManager.popIncludeFrame, h.files.includeStack]
      cases s.sm.includeStack with
      | nil => exact .inl ⟨rfl, rfl⟩
      | cons e es => exact .inr ⟨_, _, rfl, rfl, h.files.buffers, rfl⟩
    dsimp only [State.addDiags]
    rcases hpop with ⟨h₁, h₂⟩ | ⟨sm, sm', h₁, h₂, hsm⟩
    · rw [h₁, h₂]
      exact hd.abort _
    · rw [h₁, h₂]
      dsimp only
      rw [hsm.getPath]
      exact (hd.withFiles hsm).emit_same _

/-- What a frame has still to read is a variant on the other side. -/
def Reading (s s' : State) (f : Frame) : Prop :=
  Registered s.sm f.fid ∧ Registered s'.sm f.fid ∧
    CommentVariant ((s.sm.getBuffer f.fid).drop f.cursor) ((s'.sm.getBuffer f.fid).drop f.cursor)

/-- **The invariant of the two runs.** -/
structure SideBySide (s s' : State) : Prop where
  alike : Alike s s'
  reading : ∀ f ∈ s.includeStack, Reading s s' f

theorem Reading.grow {t t' : State} (h : Reading s s' f) (hg : FilesGrow s.sm t.sm)
    (hg' : FilesGrow s'.sm t'.sm) : Reading t t' f := by
  refine ⟨hg.registered h.1, hg'.registered h.2.1, ?_⟩
  rw [hg.bytes_eq _ h.1, hg'.bytes_eq _ h.2.1]
  exact h.2.2

/-- The line the two frames read is a pair, and so is what follows. -/
theorem Reading.readLine (h : Reading s s' f)
    (hl : readLine (s.sm.getBuffer f.fid) f.cursor = some l) :
    ∃ l', Preprocess.readLine (s'.sm.getBuffer f.fid) f.cursor = some l' ∧ LinePair l l' ∧
      '\n' ∉ stripCR l.body ∧
      ((l.newline = true → Region.code.scan l.bytes = .code) →
        CommentVariant ((s.sm.getBuffer f.fid).drop (f.cursor + l.bytes.length))
          ((s'.sm.getBuffer f.fid).drop (f.cursor + l.bytes.length))) := by
  have hline := hl
  have hvariant := h.2.2
  unfold Preprocess.readLine at hl ⊢
  split at hl
  · cases hl
  · next hlt =>
    obtain rfl := Option.some.inj hl
    have hne : (s.sm.getBuffer f.fid).drop f.cursor ≠ [] := by
      rw [ne_eq, List.drop_eq_nil_iff]
      exact hlt
    have hlen := hvariant.1.length_eq
    rw [List.length_drop, List.length_drop] at hlen
    obtain ⟨hnewline, hbody, hbreak, hrest⟩ := hvariant.takeLine hne
    have hbytes : ∀ (a b : Line), b.newline = a.newline → b.body.length = a.body.length →
        b.bytes.length = a.bytes.length := by
      intro a b h₁ h₂
      simp only [Line.bytes, Line.term, List.length_append, h₁, h₂]
    have hlength := hbytes _ _ hnewline hbody.length_eq
    refine ⟨_, if_neg (by omega), ⟨hnewline, hlength, stripCR_pair hbody hbreak⟩,
      stripCR_no_newline hline, fun hcode => ?_⟩
    have hdrop : ∀ t : Text, t.drop (takeLine t).1.bytes.length = (takeLine t).2 := by
      intro t
      have hcut : ((takeLine t).1.bytes ++ (takeLine t).2).drop (takeLine t).1.bytes.length =
          (takeLine t).2 := List.drop_left
      rw [takeLine_bytes] at hcut
      exact hcut
    rw [← List.drop_drop, ← List.drop_drop, hdrop, ← hlength, hdrop]
    exact hrest hcode

theorem filesGrow_stepLine : FilesGrow s.sm (stepLine env s f fs l).sm := by
  rcases stepLine_cases env s f fs l with ⟨hp, -⟩ | ⟨n, p, hp⟩ | ⟨q, sm, inner, hp⟩ | hp
  · rw [hp.sm_eq]
    exact .refl _
  · exact (filesGrow_addLineDirective hp.sm_eq).1
  · obtain ⟨hgrow, -⟩ := filesGrow_loadFile hp.loaded
    rw [hp.sm_eq]
    exact ⟨hgrow.length_le, hgrow.bytes_eq⟩
  · rw [hp.sm_eq]
    exact .refl _

theorem SideBySide.stepLine (h : SideBySide s s') (henv : EnvVariant env env')
    (hst : s.includeStack = f :: fs) (hl : readLine (s.sm.getBuffer f.fid) f.cursor = some l)
    (ho : opaqueLine env.expr s.macros (isEmitting f.condStack) l = true) :
    ∃ l', readLine (s'.sm.getBuffer f.fid) f.cursor = some l' ∧
      SideBySide (stepLine env s f fs l) (Preprocess.stepLine env' s' f fs l') := by
  have hf := h.reading f (by rw [hst]; exact List.mem_cons_self)
  obtain ⟨l', hl', hpair, hnl, hrest⟩ := hf.readLine hl
  have halike : Alike (Preprocess.stepLine env s f fs l) _ := h.alike.stepLine henv hpair hnl ho
  refine ⟨l', hl', halike, ?_⟩
  have hg : FilesGrow s.sm (Preprocess.stepLine env s f fs l).sm := filesGrow_stepLine
  have hg' : FilesGrow s'.sm (Preprocess.stepLine env' s' f fs l').sm := filesGrow_stepLine
  -- the frame behind the line, then the frames below it
  have hnext : Reading (Preprocess.stepLine env s f fs l) (Preprocess.stepLine env' s' f fs l')
      (f.next env s l) := by
    refine ⟨hg.registered hf.1, hg'.registered hf.2.1, ?_⟩
    show CommentVariant
      (((Preprocess.stepLine env s f fs l).sm.getBuffer f.fid).drop (f.cursor + l.bytes.length))
      (((Preprocess.stepLine env' s' f fs l').sm.getBuffer f.fid).drop (f.cursor + l.bytes.length))
    rw [hg.bytes_eq _ hf.1, hg'.bytes_eq _ hf.2.1]
    apply hrest
    intro hnewline
    rw [opaqueLine, Bool.and_eq_true, hnewline] at ho
    simpa using ho.1
  have hbelow : ∀ g ∈ fs, Reading (Preprocess.stepLine env s f fs l)
      (Preprocess.stepLine env' s' f fs l') g := fun g hgm =>
    (h.reading g (by rw [hst]; exact List.mem_cons_of_mem _ hgm)).grow hg hg'
  have hold : ∀ g ∈ f.next env s l :: fs, Reading (Preprocess.stepLine env s f fs l)
      (Preprocess.stepLine env' s' f fs l') g := by
    intro g hgm
    rcases List.mem_cons.1 hgm with rfl | hgm
    · exact hnext
    · exact hbelow g hgm
  rcases stepLine_cases env s f fs l with ⟨hp, -⟩ | ⟨n, p, hp⟩ | ⟨q, sm, inner, hp⟩ | hp
  · rw [hp.stack_eq]
    exact hold
  · rw [hp.stack_eq]
    exact hold
  · -- a file that was opened is read from its beginning
    rw [hp.stack_eq]
    intro g hgm
    rcases List.mem_cons.1 hgm with rfl | hgm
    · obtain ⟨-, hreg, -⟩ := files_loadFile hp.loaded
      have hreg' : Registered (Preprocess.stepLine env s f fs l).sm inner := by
        rw [hp.sm_eq]
        exact hreg
      refine ⟨hreg', ⟨hreg'.1, ?_⟩, halike.files.getBuffer inner⟩
      rw [← halike.files.buffers.length_eq]
      exact hreg'.2
    · exact hold g hgm
  · rw [hp.stack_eq]
    exact hold

theorem SideBySide.stepEof (h : SideBySide s s') (hst : s.includeStack = f :: fs)
    (hstack : Stacked s) (hstack' : Stacked s') :
    SideBySide (stepEof s f fs) (Preprocess.stepEof s' f fs) := by
  have hst' : s'.includeStack = f :: fs := h.alike.includeStack.trans hst
  have hgrow : ∀ {s : State}, Stacked s → s.includeStack = f :: fs →
      FilesGrow s.sm (Preprocess.stepEof s f fs).sm := by
    intro s hs hst
    rcases (stepEof_cases hs hst).1 with ⟨-, hsm⟩ | ⟨-, hpop⟩
    · rw [hsm]
      exact .refl _
    · obtain ⟨hbuf, -⟩ := files_popIncludeFrame hpop
      exact ⟨by rw [hbuf], fun g _ => by
        simp only [SourceManager.getBuffer, SourceManager.buffer?, hbuf]⟩
  refine ⟨h.alike.stepEof, ?_⟩
  rw [(stepEof_cases hstack hst).2.1]
  intro g hg
  exact (h.reading g (by rw [hst]; exact List.mem_cons_of_mem _ hg)).grow
    (hgrow hstack hst) (hgrow hstack' hst')

/-- **One step of both runs.** -/
theorem SideBySide.step {t t' : State} (h : SideBySide s s') (henv : EnvVariant env env')
    (hstack : Stacked s) (hstack' : Stacked s') (ho : opaqueStep env s = true)
    (ht : step env s = some t) (ht' : Preprocess.step env' s' = some t') : SideBySide t t' := by
  obtain ⟨f, fs, -, hst, hs⟩ := step_cases ht
  obtain ⟨f', fs', -, hst', hs'⟩ := step_cases ht'
  obtain ⟨rfl, rfl⟩ := List.cons.inj (hst'.symm.trans (h.alike.includeStack.trans hst))
  rcases hs with ⟨hnone, rfl⟩ | ⟨l, hl, rfl⟩
  · rcases hs' with ⟨-, rfl⟩ | ⟨l', hl', -⟩
    · exact h.stepEof hst hstack hstack'
    · -- a buffer at its end is at its end on both sides
      have hlen := (h.reading f' (by rw [hst]; exact List.mem_cons_self)).2.2.1.length_eq
      rw [List.length_drop, List.length_drop] at hlen
      unfold readLine at hnone hl'
      split at hnone
      · next hle =>
        rw [if_pos (by omega)] at hl'
        cases hl'
      · cases hnone
  · have hline : opaqueLine env.expr s.macros (isEmitting f'.condStack) l = true := by
      simpa only [opaqueStep, hst, hl, Option.all_some] using ho
    obtain ⟨l', hl', hside⟩ := h.stepLine henv hst hl hline
    rcases hs' with ⟨hnone, -⟩ | ⟨k, hk, rfl⟩
    · rw [hl'] at hnone
      cases hnone
    · obtain rfl := Option.some.inj (hl'.symm.trans hk)
      exact hside

end Steps

/-! ## Opacity -/

/-- What replacing comments leaves as it is. -/
structure SameOutcome (s s' : State) : Prop where
  diags : s'.diags = s.diags
  macros : s'.macros = s.macros
  finished : s'.finished = s.finished
  succeeded : s'.succeeded = s.succeeded
  output : OutputsAgree s.output s'.output

/-- **Comments are opaque** to the first `n` iterations of a run: whatever
is put in the place of the comments of any of the files. -/
def CommentsOpaque (env : Env) (path : Text) (input : SourceText)
    (predefined : List (Text × Text)) (n : ℕ) : Prop :=
  ∀ (env' : Env) (input' : SourceText), EnvVariant env env' →
    CommentVariant input.text input'.text →
      SameOutcome (runState env n (initial path input predefined))
        (runState env' n (initial path input' predefined))

theorem Alike.sameOutcome {s s' : State} (h : Alike s s') : SameOutcome s s' := by
  have hfinished : s'.finished = s.finished := by
    rw [State.finished, State.finished, h.aborted, h.includeStack]
  refine ⟨h.diags, h.macros, hfinished, ?_, h.output⟩
  rw [State.succeeded, State.succeeded, hfinished, h.diags]

theorem sideBySide_initial (path : Text) {input input' : SourceText}
    (predefined : List (Text × Text)) (h : CommentVariant input.text input'.text) :
    SideBySide (initial path input predefined) (initial path input' predefined) := by
  refine ⟨⟨⟨.cons ⟨rfl, rfl, h⟩ .nil, rfl⟩, rfl, rfl, rfl, rfl, [], rfl, rfl, ?_⟩, ?_⟩
  · exact fun p hp => absurd hp List.not_mem_nil
  · intro f hf
    rw [List.mem_singleton.1 hf]
    exact ⟨⟨Nat.one_pos, Nat.le_refl 1⟩, ⟨Nat.one_pos, Nat.le_refl 1⟩, h⟩

/-- Along a run whose lines comments do not influence, comments are
opaque. -/
theorem commentsOpaque_of_opaqueSteps (env : Env) (path : Text) (input : SourceText)
    (predefined : List (Text × Text)) (n : ℕ)
    (ho : ∀ k < n, opaqueStep env (runState env k (initial path input predefined)) = true) :
    CommentsOpaque env path input predefined n := by
  intro env' input' henv hinput
  let R (s s' : State) : Prop := SideBySide s s' ∧ Stacked s ∧ Stacked s'
  have hrun : R (runState env n (initial path input predefined))
      (runState env' n (initial path input' predefined)) := by
    refine Run.runUpto_rel (G := fun s => opaqueStep env s = true) ?_ ?_ ho
      ⟨sideBySide_initial path predefined hinput, stacked_initial _ _ _, stacked_initial _ _ _⟩
    · rintro s s' ⟨h, -, -⟩
      rw [step_eq_none_iff, step_eq_none_iff, h.alike.aborted, h.alike.includeStack]
    · rintro s s' t t' ⟨h, hs, hs'⟩ hstep ht ht'
      exact ⟨h.step henv hs hs' hstep ht ht', stacked_step hs ht, stacked_step hs' ht'⟩
  exact hrun.1.alike.sameOutcome

/-- A comment behind a reference, and one behind a directive. -/
def commentedFile : SourceText :=
  ⟨"#define A 1\n#ifdef A\nx = %A%; // a \"1.5\n#endif // A\n".toList, by decide⟩

theorem commentsOpaque_commentedFile :
    (∀ k < 5, opaqueStep bareEnv (runState bareEnv k (initial ['a'] commentedFile [])) = true) ∧
      CommentsOpaque bareEnv ['a'] commentedFile [] 5 := by
  have ho : ∀ k < 5, opaqueStep bareEnv (runState bareEnv k (initial ['a'] commentedFile [])) =
      true := by decide +kernel
  exact ⟨ho, commentsOpaque_of_opaqueSteps bareEnv ['a'] commentedFile [] 5 ho⟩

theorem envVariant_refl (env : Env) : EnvVariant env env :=
  ⟨rfl, rfl, rfl, fun _ h => h, fun _ t h => ⟨t, h, commentVariant_refl t.text⟩⟩

/-- A comment of three lines with a directive in it. -/
def directiveInCommentFile : SourceText := ⟨"/*\n#define A 1\n*/\n".toList, by decide⟩

/-- The same file with another name in the comment. -/
def otherCommentFile : SourceText := ⟨"/*\n#define B 1\n*/\n".toList, by decide⟩

/-- The directive is carried out. -/
theorem not_commentsOpaque_directiveInCommentFile :
    ¬ CommentsOpaque bareEnv ['a'] directiveInCommentFile [] 4 := by
  intro h
  have hvariant : CommentVariant directiveInCommentFile.text otherCommentFile.text :=
    ⟨by decide +kernel, by decide +kernel⟩
  have hmacros := (h bareEnv otherCommentFile (envVariant_refl bareEnv) hvariant).macros
  exact absurd hmacros (by decide +kernel)

end Preprocess

end Nslc
