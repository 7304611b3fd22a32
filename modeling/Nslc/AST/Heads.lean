import Nslc.AST.Printer
/-!
# AST — reading a head back

Where names hold none of the characters the dump separates by, and a
literal is spelled without them or as a whole string, the text of a head
tells the kind, every field and every part of a name.
-/

namespace Nslc

namespace AST

/-! ## Words -/

/-- A text that begins with one of these. -/
def Begins (p : Char → Prop) (s : Text) : Prop := ∃ c t, s = c :: t ∧ p c

theorem Begins.mono {p q : Char → Prop} {s : Text} (h : Begins p s) (hpq : ∀ c, p c → q c) :
    Begins q s := by
  obtain ⟨c, t, rfl, hc⟩ := h
  exact ⟨c, t, rfl, hpq c hc⟩

/-- Two words that end where a stop stands are read off a text the same
way. -/
theorem word_cancel {p : Char → Prop} {w w' s s' : Text} (hw : ∀ c ∈ w, ¬ p c)
    (hw' : ∀ c ∈ w', ¬ p c) (hs : Begins p s) (hs' : Begins p s')
    (h : w ++ s = w' ++ s') : w = w' ∧ s = s' := by
  obtain ⟨c, t, rfl, hc⟩ := hs
  obtain ⟨c', t', rfl, hc'⟩ := hs'
  induction w generalizing w' with
  | nil =>
    cases w' with
    | nil => exact ⟨rfl, h⟩
    | cons d w' =>
      obtain ⟨rfl, -⟩ := List.cons.inj h
      exact absurd hc (hw' c (by simp))
  | cons d w ih =>
    cases w' with
    | nil =>
      obtain ⟨rfl, -⟩ := List.cons.inj h
      exact absurd hc' (hw d (by simp))
    | cons d' w' =>
      obtain ⟨rfl, htail⟩ := List.cons.inj h
      obtain ⟨rfl, hrest⟩ := ih (fun e he => hw e (by simp [he]))
        (fun e he => hw' e (by simp [he])) htail
      exact ⟨rfl, hrest⟩

/-- What ends a value: a blank, a parenthesis or a newline. -/
def isStop (c : Char) : Bool := c == ' ' || c == ')' || c == '\n'

/-- The characters the dump separates by. -/
def isSeparator (c : Char) : Bool :=
  isStop c || c == '"' || c == '[' || c == ']' || c == '.' || c == ','

/-- A name as the lexer makes them. -/
def NameLike (x : Text) : Prop := x ≠ [] ∧ ∀ c ∈ x, isSeparator c = false

/-- A spelling as the lexer makes them: a number without blanks,
parentheses and quotes, or a string up to its closing quote. -/
def SpellingLike (t : Text) : Prop :=
  (∀ c ∈ t, isStop c = false ∧ c ≠ '"') ∨
    ∃ body, t = '"' :: body ∧ Lex.stringBody body = (body.length, true)

/-- A value in its place: spellings are the values of literals, and only
they. -/
def Field.Good (f : Field) : Prop :=
  match f.value with
  | .parts ps => f.name ≠ .value ∧ ∀ x ∈ ps, NameLike x
  | .list ns => f.name ≠ .value ∧ ∀ x ∈ ns, NameLike x
  | .spelling t => f.name = .value ∧ SpellingLike t

def Head.Good (h : Head) : Prop := ∀ f ∈ h.fields, f.Good

/-! ## Names in their parts -/

theorem intercalate_cons (sep : Char) (x : Text) (xs : List Text) :
    List.intercalate [sep] (x :: xs) = x ++ (xs.map (sep :: ·)).flatten := by
  induction xs generalizing x with
  | nil => simp [List.intercalate]
  | cons y ys ih =>
    rw [List.intercalate_cons_cons, ih]
    simp

/-- The characters that end a part. -/
def endsPart (sep : Char) (c : Char) : Prop := c = sep ∨ isStop c = true ∨ c = ']'

theorem NameLike.not_endsPart {x : Text} (h : NameLike x) {sep : Char}
    (hsep : sep = '.' ∨ sep = ',') :
    ∀ c ∈ x, ¬ endsPart sep c := by
  rintro c hc hend
  have hno := h.2 c hc
  obtain rfl | hstop | rfl := hend
  · obtain rfl | rfl := hsep <;> exact absurd hno (by decide)
  · simp [isSeparator, hstop] at hno
  · exact absurd hno (by decide)

/-- Names behind separators can be told from what follows them. -/
theorem separated_cancel {sep : Char} (hsep : sep = '.' ∨ sep = ',') {xs ys : List Text}
    {s s' : Text} (hxs : ∀ x ∈ xs, NameLike x) (hys : ∀ y ∈ ys, NameLike y)
    (hs : Begins (fun c => isStop c = true ∨ c = ']') s)
    (hs' : Begins (fun c => isStop c = true ∨ c = ']') s')
    (h : (xs.map (sep :: ·)).flatten ++ s = (ys.map (sep :: ·)).flatten ++ s') :
    xs = ys ∧ s = s' := by
  have hne : ∀ {zs : List Text} {t u : Text}, Begins (fun c => isStop c = true ∨ c = ']') t →
      t ≠ ((sep :: u) ++ (zs.map (sep :: ·)).flatten) ++ s' ∧
        t ≠ ((sep :: u) ++ (zs.map (sep :: ·)).flatten) ++ s := by
    rintro zs t u ⟨c, t, rfl, hc⟩
    have hc : c ≠ sep := by
      rintro rfl
      obtain rfl | rfl := hsep <;> simp [isStop] at hc
    exact ⟨fun he => hc (List.cons.inj he).1, fun he => hc (List.cons.inj he).1⟩
  have hends : ∀ {zs : List Text} {t : Text}, Begins (fun c => isStop c = true ∨ c = ']') t →
      Begins (endsPart sep) ((zs.map (sep :: ·)).flatten ++ t) := by
    intro zs t ht
    cases zs with
    | nil => exact ht.mono fun c hc => Or.inr hc
    | cons z zs => exact ⟨sep, _, rfl, Or.inl rfl⟩
  induction xs generalizing ys with
  | nil =>
    cases ys with
    | nil => exact ⟨rfl, h⟩
    | cons y ys => exact absurd h (hne hs).1
  | cons x xs ih =>
    cases ys with
    | nil => exact absurd h.symm (hne hs').2
    | cons y ys =>
      simp only [List.map_cons, List.flatten_cons, List.cons_append, List.append_assoc,
        List.cons.injEq, true_and] at h
      obtain ⟨rfl, htail⟩ := word_cancel ((hxs x (by simp)).not_endsPart hsep)
        ((hys y (by simp)).not_endsPart hsep) (hends hs) (hends hs') h
      obtain ⟨rfl, hrest⟩ := ih (fun z hz => hxs z (by simp [hz]))
        (fun z hz => hys z (by simp [hz])) htail
      exact ⟨rfl, hrest⟩

/-- Joined names can be told from what follows them. -/
theorem joined_cancel {sep : Char} (hsep : sep = '.' ∨ sep = ',') {xs ys : List Text}
    {s s' : Text} (hxs : ∀ x ∈ xs, NameLike x) (hys : ∀ y ∈ ys, NameLike y)
    (hs : Begins (fun c => isStop c = true ∨ c = ']') s)
    (hs' : Begins (fun c => isStop c = true ∨ c = ']') s')
    (h : List.intercalate [sep] xs ++ s = List.intercalate [sep] ys ++ s') :
    xs = ys ∧ s = s' := by
  -- a name does not begin with a stop
  have hne : ∀ {x t u r : Text}, NameLike x → Begins (fun c => isStop c = true ∨ c = ']') t →
      t ≠ (x ++ u) ++ r := by
    rintro x t u r ⟨hx, hno⟩ ⟨c, t, rfl, hc⟩ he
    obtain ⟨d, x, rfl⟩ := List.exists_cons_of_ne_nil hx
    obtain ⟨rfl, -⟩ := List.cons.inj he
    have hd := hno c (by simp)
    obtain hc | rfl := hc
    · simp [isSeparator, hc] at hd
    · exact absurd hd (by decide)
  cases xs with
  | nil =>
    cases ys with
    | nil => exact ⟨rfl, by simpa using h⟩
    | cons y ys =>
      rw [intercalate_cons] at h
      exact absurd h (hne (hys y (by simp)) hs)
  | cons x xs =>
    cases ys with
    | nil =>
      rw [intercalate_cons] at h
      exact absurd h.symm (hne (hxs x (by simp)) hs')
    | cons y ys =>
      rw [intercalate_cons, intercalate_cons] at h
      -- a separator in front makes the first name one of the others
      have h' : ((x :: xs).map (sep :: ·)).flatten ++ s = ((y :: ys).map (sep :: ·)).flatten ++ s' := by
        simpa using h
      exact separated_cancel hsep hxs hys hs hs' h'

/-! ## Values, fields, heads -/

/-- A string ends at its closing quote whatever follows. -/
theorem stringBody_append {b : Text} (h : (Lex.stringBody b).2 = true) (s : Text) :
    Lex.stringBody (b ++ s) = Lex.stringBody b := by
  fun_induction Lex.stringBody b with
  | case1 => exact absurd h (by simp)
  | case2 cs => rw [List.cons_append, Lex.stringBody.eq_def]; rfl
  | case3 cs hq => exact absurd h (by simp)
  | case4 hq hn => exact absurd h (by simp)
  | case5 d ds hq hn ih =>
    rw [List.cons_append, Lex.stringBody.eq_def]
    simp only [List.cons_append, hq, hn, if_true, if_false, ih h]
  | case6 c cs hq hn hb ih =>
    rw [List.cons_append, Lex.stringBody.eq_def]
    simp only [hq, hn, hb, if_false, ih h]

theorem spelling_cancel {t t' s s' : Text} (ht : SpellingLike t) (ht' : SpellingLike t')
    (hs : Begins (fun c => isStop c = true) s) (hs' : Begins (fun c => isStop c = true) s')
    (h : t ++ s = t' ++ s') : t = t' ∧ s = s' := by
  -- a number is not the beginning of a string
  have hmix : ∀ {t s b r : Text}, (∀ c ∈ t, isStop c = false ∧ c ≠ '"') →
      Begins (fun c => isStop c = true) s → t ++ s ≠ '"' :: b ++ r := by
    rintro t s b r ht ⟨c, s, rfl, hc⟩ he
    cases t with
    | nil =>
      obtain ⟨rfl, -⟩ := List.cons.inj he
      exact absurd hc (by decide)
    | cons d t =>
      obtain ⟨rfl, -⟩ := List.cons.inj he
      exact absurd rfl (ht _ (by simp)).2
  obtain hplain | ⟨b, rfl, hb⟩ := ht
  · obtain hplain' | ⟨b', rfl, -⟩ := ht'
    · exact word_cancel (fun c hc => by simp [(hplain c hc).1])
        (fun c hc => by simp [(hplain' c hc).1]) hs hs' h
    · exact absurd h (hmix hplain hs)
  · obtain hplain' | ⟨b', rfl, hb'⟩ := ht'
    · exact absurd h.symm (hmix hplain' hs')
    · have h : b ++ s = b' ++ s' := (List.cons.inj h).2
      have hlen : b.length = b'.length := by
        have h₁ := stringBody_append (by rw [hb]) s
        have h₂ := stringBody_append (by rw [hb']) s'
        rw [h, h₂, hb, hb'] at h₁
        exact (Prod.mk.inj h₁).1.symm
      obtain ⟨rfl, hrest⟩ := List.append_inj h hlen
      exact ⟨rfl, hrest⟩

/-- The value of a field can be told from what follows it. -/
theorem value_cancel {f : FieldName} {v v' : Value} {s s' : Text} (hv : Field.Good ⟨f, v⟩)
    (hv' : Field.Good ⟨f, v'⟩) (hs : Begins (fun c => isStop c = true) s)
    (hs' : Begins (fun c => isStop c = true) s') (h : v.text ++ s = v'.text ++ s') :
    v = v' ∧ s = s' := by
  have hwide : ∀ {t : Text}, Begins (fun c => isStop c = true) t →
      Begins (fun c => isStop c = true ∨ c = ']') t := fun ht => ht.mono fun c hc => Or.inl hc
  -- neither a name nor what follows begins with a bracket
  have hbracket : ∀ {ps : List Text} {t u : Text}, (∀ x ∈ ps, NameLike x) →
      Begins (fun c => isStop c = true) t → List.intercalate ['.'] ps ++ t ≠ '[' :: u := by
    rintro ps t u hps ⟨c, t, rfl, hc⟩ he
    cases ps with
    | nil =>
      obtain ⟨rfl, -⟩ := List.cons.inj he
      exact absurd hc (by decide)
    | cons x ps =>
      obtain ⟨hx, hno⟩ := hps x (by simp)
      obtain ⟨d, x, rfl⟩ := List.exists_cons_of_ne_nil hx
      rw [intercalate_cons] at he
      obtain ⟨rfl, -⟩ := List.cons.inj he
      exact absurd (hno '[' (by simp)) (by decide)
  cases v with
  | parts ps =>
    cases v' with
    | parts ps' =>
      obtain ⟨rfl, hrest⟩ := joined_cancel (Or.inl rfl) hv.2 hv'.2 (hwide hs) (hwide hs') h
      exact ⟨rfl, hrest⟩
    | list ns => exact absurd h (hbracket hv.2 hs)
    | spelling t => exact absurd hv'.1 hv.1
  | list ns =>
    cases v' with
    | parts ps' => exact absurd h.symm (hbracket hv'.2 hs')
    | list ns' =>
      simp only [Value.text, List.cons_append, List.append_assoc, List.cons.injEq, true_and,
        List.nil_append] at h
      obtain ⟨rfl, hrest⟩ := joined_cancel (Or.inr rfl) hv.2 hv'.2 ⟨']', s, rfl, Or.inr rfl⟩
        ⟨']', s', rfl, Or.inr rfl⟩ h
      exact ⟨rfl, (List.cons.inj hrest).2⟩
    | spelling t => exact absurd hv'.1 hv.1
  | spelling t =>
    cases v' with
    | parts ps' => exact absurd hv.1 hv'.1
    | list ns => exact absurd hv.1 hv'.1
    | spelling t' =>
      obtain ⟨rfl, hrest⟩ := spelling_cancel hv.2 hv'.2 hs hs' h
      exact ⟨rfl, hrest⟩

/-- The kind with this name. -/
def NodeKind.ofName (s : String) : Option NodeKind :=
  [NodeKind.compilationUnit, .structDecl, .topLevelParamDecl, .declareBlock, .portDecl,
    .moduleBlock, .regDecl, .wireDecl, .variableDecl, .integerDecl, .memDecl, .funcSelfDecl,
    .procNameDecl, .stateNameDecl, .firstStateDecl, .submoduleDecl, .structInstDecl, .funcDefn,
    .procDefn, .stateDefn, .transferStmt, .incDecStmt, .controlCallStmt, .bareFinishStmt,
    .systemTaskStmt, .returnStmt, .emptyStmt, .labeledStmt, .gotoStmt, .initBlockStmt,
    .delayTaskStmt, .parallelBlock, .altBlock, .anyBlock, .seqBlock, .whileBlock, .forBlock,
    .ifStmt, .structuralGenerate, .literalExpr, .identifierExpr, .systemVarExpr, .unaryExpr,
    .binaryExpr, .conditionalExpr, .concatExpr, .repeatExpr, .signExtendExpr, .zeroExtendExpr,
    .sliceExpr, .fieldAccessExpr, .callExpr, .structCastExpr, .incDecExpr, .structMember, .inst,
    .paramAssign, .condCase, .elseCase].find? fun k => k.name == s

theorem NodeKind.ofName_name (k : NodeKind) : NodeKind.ofName k.name = some k := by
  cases k <;> rfl

theorem NodeKind.name_injective {k k' : NodeKind} (h : k.name = k'.name) : k = k' :=
  Option.some.inj (by rw [← k.ofName_name, ← k'.ofName_name, h])

theorem NodeKind.not_isStop (k : NodeKind) : ∀ c ∈ k.name.toList, ¬ isStop c = true := by
  have hall : (k.name.toList.all fun c => !isStop c) = true := by cases k <;> rfl
  intro c hc
  simpa using List.all_eq_true.1 hall c hc

/-- The field with this name. -/
def FieldName.ofText (s : String) : Option FieldName :=
  [FieldName.name, .kind, .modifier, .direction, .returnTerminal, .dummyArgs, .regArgs, .names,
    .target, .templateName, .typeName, .instanceName, .storage, .op, .isPrefix, .label, .init,
    .value, .flags, .var, .field, .memberPath].find? fun f => f.text == s

theorem FieldName.ofText_text (f : FieldName) : FieldName.ofText f.text = some f := by
  cases f <;> rfl

theorem FieldName.text_injective {f f' : FieldName} (h : f.text = f'.text) : f = f' :=
  Option.some.inj (by rw [← f.ofText_text, ← f'.ofText_text, h])

theorem FieldName.ne_equals (f : FieldName) : ∀ c ∈ f.text.toList, ¬ c = '=' := by
  have hall : (f.text.toList.all fun c => !(c == '=')) = true := by cases f <;> rfl
  intro c hc
  simpa using List.all_eq_true.1 hall c hc

/-- Behind a value stand more fields or the end of the head. -/
theorem stops_fields (fs : List Field) {r : Text} (hr : Sexp.Stops r) :
    Begins (fun c => isStop c = true) ((fs.map Field.text).flatten ++ r) := by
  obtain ⟨s, hs⟩ := hr
  cases fs with
  | nil =>
    obtain rfl | rfl := hs
    · exact ⟨_, _, rfl, by decide⟩
    · exact ⟨_, _, rfl, by decide⟩
  | cons f fs => exact ⟨' ', _, rfl, by decide⟩

/-- Fields can be told from what follows them. -/
theorem fields_cancel {fs fs' : List Field} {r r' : Text} (hfs : ∀ f ∈ fs, f.Good)
    (hfs' : ∀ f ∈ fs', f.Good) (hr : Sexp.Stops r) (hr' : Sexp.Stops r')
    (h : (fs.map Field.text).flatten ++ r = (fs'.map Field.text).flatten ++ r') :
    fs = fs' ∧ r = r' := by
  have hblank : ∀ {g : Field} {t u : Text}, Sexp.Stops t → t ≠ g.text ++ u := by
    rintro g t u ⟨v, rfl | rfl⟩ he
    · exact absurd (List.cons.inj he).1 (by decide)
    · exact absurd (List.cons.inj he).1 (by decide)
  induction fs generalizing fs' with
  | nil =>
    cases fs' with
    | nil => exact ⟨rfl, h⟩
    | cons f' fs' =>
      simp only [List.map_nil, List.flatten_nil, List.nil_append, List.map_cons, List.flatten_cons,
        List.append_assoc] at h
      exact absurd h (hblank hr)
  | cons f fs ih =>
    cases fs' with
    | nil =>
      simp only [List.map_nil, List.flatten_nil, List.nil_append, List.map_cons, List.flatten_cons,
        List.append_assoc] at h
      exact absurd h.symm (hblank hr')
    | cons f' fs' =>
      obtain ⟨n, v⟩ := f
      obtain ⟨n', v'⟩ := f'
      simp only [List.map_cons, List.flatten_cons, Field.text, List.cons_append, List.append_assoc,
        List.cons.injEq, true_and] at h
      obtain ⟨hname, hvalue⟩ := word_cancel n.ne_equals n'.ne_equals ⟨'=', _, rfl, rfl⟩
        ⟨'=', _, rfl, rfl⟩ h
      obtain rfl := FieldName.text_injective (String.toList_inj.1 hname)
      obtain ⟨rfl, htail⟩ := value_cancel (hfs ⟨n, v⟩ (by simp)) (hfs' ⟨n, v'⟩ (by simp))
        (stops_fields fs hr) (stops_fields fs' hr') (List.cons.inj hvalue).2
      obtain ⟨rfl, hrest⟩ := ih (fun g hg => hfs g (by simp [hg]))
        (fun g hg => hfs' g (by simp [hg])) htail
      exact ⟨rfl, hrest⟩

/-- **A head can be told from what follows it.** -/
theorem tells_head : Sexp.Tells Head.text Head.Good := by
  rintro ⟨k, fs⟩ ⟨k', fs'⟩ r r' hgood hgood' hr hr' h
  simp only [Head.text, List.append_assoc] at h
  obtain ⟨hname, hfields⟩ := word_cancel k.not_isStop k'.not_isStop (stops_fields fs hr)
    (stops_fields fs' hr') h
  obtain rfl := NodeKind.name_injective (String.toList_inj.1 hname)
  obtain ⟨rfl, hrest⟩ := fields_cancel hgood hgood' hr hr' hfields
  exact ⟨rfl, hrest⟩

end AST

end Nslc
