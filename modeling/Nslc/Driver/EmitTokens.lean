import Nslc.Common.Separators
import Nslc.Driver.FileNames
/-!
# Driver — the token stream

`nslc -emit=tokens` lexes the preprocessed buffer up to its end and
writes one line for each token: kind, spelling, place in the buffer,
place as `#line` has it, flags. Nothing is lost in that: what was written
determines the tokens, and by them the text outside of blanks and
comments.
-/

namespace Nslc

namespace Lex

namespace TokenKind

/-- `toString`, behind its `tk_`. -/
def name : TokenKind → String
  | .unknown => "unknown"
  | .eof => "eof"
  | .identifier => "identifier"
  | .stringLit => "string_lit"
  | .decimalLit => "decimal_lit"
  | .hexLit => "hex_lit"
  | .binaryLit => "binary_lit"
  | .octalLit => "octal_lit"
  | .systemTask => "system_task"
  | .systemFunction => "system_function"
  | .unusedUnderscore => "unused_underscore"
  | .alt => "alt"
  | .any => "any"
  | .declare => "declare"
  | .finish => "finish"
  | .for_ => "for_"
  | .func => "func"
  | .funcIn => "func_in"
  | .funcOut => "func_out"
  | .funcSelf => "func_self"
  | .generate => "generate"
  | .goto_ => "goto_"
  | .inout => "inout"
  | .input => "input"
  | .integer => "integer"
  | .interface => "interface"
  | .label => "label"
  | .labelName => "label_name"
  | .mClock => "m_clock"
  | .mem => "mem"
  | .module_ => "module"
  | .output => "output"
  | .pReset => "p_reset"
  | .proc => "proc"
  | .procName => "proc_name"
  | .reg => "reg"
  | .seq => "seq"
  | .state => "state"
  | .stateName => "state_name"
  | .variable_ => "variable"
  | .while_ => "while_"
  | .wire => "wire"
  | .else_ => "else_"
  | .firstState => "first_state"
  | .function => "function"
  | .if_ => "if_"
  | .invoke => "invoke"
  | .paramInt => "param_int"
  | .paramStr => "param_str"
  | .parameter => "parameter"
  | .return_ => "return_"
  | .simulation => "simulation"
  | .struct_ => "struct_"
  | .lparen => "lparen"
  | .rparen => "rparen"
  | .lbrace => "lbrace"
  | .rbrace => "rbrace"
  | .lbracket => "lbracket"
  | .rbracket => "rbracket"
  | .comma => "comma"
  | .semicolon => "semicolon"
  | .colon => "colon"
  | .dot => "dot"
  | .assign => "assign"
  | .assignSeq => "assign_seq"
  | .plus => "plus"
  | .minus => "minus"
  | .plusPlus => "plus_plus"
  | .minusMinus => "minus_minus"
  | .star => "star"
  | .slash => "slash"
  | .percent => "percent"
  | .amp => "amp"
  | .pipe => "pipe"
  | .caret => "caret"
  | .tilde => "tilde"
  | .logicalAnd => "logical_and"
  | .logicalOr => "logical_or"
  | .logicalNot => "logical_not"
  | .equal => "equal"
  | .notEqual => "not_equal"
  | .less => "less"
  | .lessEqual => "less_equal"
  | .greater => "greater"
  | .greaterEqual => "greater_equal"
  | .shiftLeft => "shift_left"
  | .shiftRight => "shift_right"
  | .question => "question"
  | .atSign => "at"
  | .hashSignExtend => "hash_sign_extend"
  | .apostropheZeroExtend => "apostrophe_zero_extend"
  | .dotLbrace => "dot_lbrace"
  | .lineDirective => "line_directive"

def toString (k : TokenKind) : Text := "tk_".toList ++ k.name.toList

def all : List TokenKind :=
  [.unknown, .eof, .identifier, .stringLit, .decimalLit, .hexLit, .binaryLit, .octalLit,
    .systemTask, .systemFunction, .unusedUnderscore, .alt, .any, .declare, .finish, .for_, .func,
    .funcIn, .funcOut, .funcSelf, .generate, .goto_, .inout, .input, .integer, .interface,
    .label, .labelName, .mClock, .mem, .module_, .output, .pReset, .proc, .procName, .reg, .seq,
    .state, .stateName, .variable_, .while_, .wire, .else_, .firstState, .function, .if_,
    .invoke, .paramInt, .paramStr, .parameter, .return_, .simulation, .struct_, .lparen, .rparen,
    .lbrace, .rbrace, .lbracket, .rbracket, .comma, .semicolon, .colon, .dot, .assign,
    .assignSeq, .plus, .minus, .plusPlus, .minusMinus, .star, .slash, .percent, .amp, .pipe,
    .caret, .tilde, .logicalAnd, .logicalOr, .logicalNot, .equal, .notEqual, .less, .lessEqual,
    .greater, .greaterEqual, .shiftLeft, .shiftRight, .question, .atSign, .hashSignExtend,
    .apostropheZeroExtend, .dotLbrace, .lineDirective]

theorem mem_all (k : TokenKind) : k ∈ all := by cases k <;> decide +kernel

/-- The bytes of a name as one number, by which names are told apart. -/
def key (k : TokenKind) : ℕ := k.name.toList.foldl (fun n c => 256 * n + c.toNat) 0

theorem toString_injective : Function.Injective toString := by
  have hnodup : (all.map key).Nodup := by decide +kernel
  intro k k' h
  have hname : k.name.toList = k'.name.toList := List.append_cancel_left h
  exact List.inj_on_of_nodup_map hnodup (mem_all k) (mem_all k') (by rw [key, key, hname])

theorem plain_toString (k : TokenKind) : '\t' ∉ k.toString ∧ '\n' ∉ k.toString := by
  have hall : (all.all fun k => k.name.toList.all fun c => 32 < c.toNat) = true := by
    decide +kernel
  have hname := List.all_eq_true.1 (List.all_eq_true.1 hall k (mem_all k))
  have hother : ∀ c : Char, c.toNat ≤ 32 → c ∉ "tk_".toList → c ∉ k.toString := by
    intro c hc hprefix hm
    rcases List.mem_append.1 hm with hm | hm
    · exact hprefix hm
    · exact absurd (of_decide_eq_true (hname c hm)) (Nat.not_lt.2 hc)
  exact ⟨hother '\t' (by decide) (by decide), hother '\n' (by decide) (by decide)⟩

end TokenKind

end Lex

namespace Driver

open Nslc.Lex Separators

/-! ## The fields of a line -/

def escapeChar (c : Char) : Text :=
  if c = '\t' then ['\\', 't']
  else if c = '\n' then ['\\', 'n']
  else if c = '\\' then ['\\', '\\']
  else if c = '"' then ['\\', '"']
  else [c]

def escapeForTokenStream (s : Text) : Text := s.flatMap escapeChar

def renderFlags (flags : NumFlags) : Text :=
  let names := (if flags.hasZ then ["Z"] else []) ++ (if flags.hasX then ["X"] else []) ++
    if flags.hasU then ["U"] else []
  '[' :: ((",".intercalate names).toList ++ [']'])

/-- A column or a line number behind its colon. -/
def colonNat (n : ℕ) : Text := ':' :: Nat.toDigits 10 n

/-- One line of the output. -/
structure Shown where
  kind : TokenKind
  spelling : Text
  path : Text
  physical : ℕ × ℕ
  offset : ℕ
  virtual : Text × ℕ × ℕ
  flags : NumFlags
  deriving DecidableEq, Repr

def Shown.place (s : Shown) : Text :=
  s.path ++ (colonNat s.physical.1 ++ (colonNat s.physical.2 ++ colonNat s.offset))

def Shown.virtualPlace (s : Shown) : Text :=
  s.virtual.1 ++ (colonNat s.virtual.2.1 ++ colonNat s.virtual.2.2)

/-- The line, but for the newline at its end. -/
def Shown.line (s : Shown) : Text :=
  s.kind.toString ++ '\t' :: (escapeForTokenStream s.spelling ++ '\t' :: (s.place ++ '\t' ::
    (s.virtualPlace ++ '\t' :: renderFlags s.flags)))

/-- A path that does not break its line. -/
def PlainPath (p : Text) : Prop := '\t' ∉ p ∧ '\n' ∉ p

def Shown.Plain (s : Shown) : Prop := PlainPath s.path ∧ PlainPath s.virtual.1

/-! ## The fields come back -/

theorem escapeChar_cases (c : Char) :
    (escapeChar c = [c] ∧ c ≠ '\\' ∧ c ≠ '\t' ∧ c ≠ '\n') ∨
      ∃ e, escapeChar c = ['\\', e] ∧ e ≠ '\t' ∧ e ≠ '\n' ∧
        ∀ d, escapeChar d = ['\\', e] → d = c := by
  have hother : ∀ d e : Char, escapeChar d = ['\\', e] →
      (d = '\t' ∧ e = 't') ∨ (d = '\n' ∧ e = 'n') ∨ (d = '\\' ∧ e = '\\') ∨ (d = '"' ∧ e = '"') := by
    intro d e h
    rw [escapeChar] at h
    split_ifs at h with h₁ h₂ h₃ h₄ <;> simp_all <;> exact h.symm
  by_cases h₁ : c = '\t'
  · subst h₁
    exact .inr ⟨'t', rfl, by decide, by decide, fun d hd => by
      rcases hother d 't' hd with h | h | h | h <;> simp_all⟩
  by_cases h₂ : c = '\n'
  · subst h₂
    exact .inr ⟨'n', rfl, by decide, by decide, fun d hd => by
      rcases hother d 'n' hd with h | h | h | h <;> simp_all⟩
  by_cases h₃ : c = '\\'
  · subst h₃
    exact .inr ⟨'\\', rfl, by decide, by decide, fun d hd => by
      rcases hother d '\\' hd with h | h | h | h <;> simp_all⟩
  by_cases h₄ : c = '"'
  · subst h₄
    exact .inr ⟨'"', rfl, by decide, by decide, fun d hd => by
      rcases hother d '"' hd with h | h | h | h <;> simp_all⟩
  · exact .inl ⟨by simp [escapeChar, h₁, h₂, h₃, h₄], h₃, h₁, h₂⟩

/-- A backslash in front of the output starts an escape, and anything
else is a character of its own. -/
theorem escapeForTokenStream_injective : Function.Injective escapeForTokenStream := by
  intro s
  induction s with
  | nil =>
    intro s' h
    cases s' with
    | nil => rfl
    | cons d ds =>
      rcases escapeChar_cases d with ⟨hd, -⟩ | ⟨e, hd, -⟩ <;>
        simp [escapeForTokenStream, hd] at h
  | cons c cs ih =>
    intro s' h
    cases s' with
    | nil =>
      rcases escapeChar_cases c with ⟨hc, -⟩ | ⟨e, hc, -⟩ <;>
        simp [escapeForTokenStream, hc] at h
    | cons d ds =>
      have hsplit : escapeChar c ++ escapeForTokenStream cs =
          escapeChar d ++ escapeForTokenStream ds := by
        simpa [escapeForTokenStream] using h
      rcases escapeChar_cases c with ⟨hc, hcs, -⟩ | ⟨e, hc, -, -, honly⟩
      · rcases escapeChar_cases d with ⟨hd, -⟩ | ⟨e', hd, -⟩
        · rw [hc, hd] at hsplit
          obtain ⟨rfl, hrest⟩ := List.cons.inj hsplit
          rw [ih hrest]
        · rw [hc, hd] at hsplit
          exact absurd (List.cons.inj hsplit).1 hcs
      · rcases escapeChar_cases d with ⟨hd, hds, -⟩ | ⟨e', hd, -⟩
        · rw [hc, hd] at hsplit
          exact absurd (List.cons.inj hsplit).1.symm hds
        · rw [hc, hd] at hsplit
          obtain ⟨-, htail⟩ := List.cons.inj hsplit
          obtain ⟨rfl, hrest⟩ := List.cons.inj htail
          rw [honly d hd, ih hrest]

theorem plain_escapeForTokenStream (s : Text) :
    '\t' ∉ escapeForTokenStream s ∧ '\n' ∉ escapeForTokenStream s := by
  have hchar : ∀ c, '\t' ∉ escapeChar c ∧ '\n' ∉ escapeChar c := by
    intro c
    rcases escapeChar_cases c with ⟨hc, -, ht, hn⟩ | ⟨e, hc, ht, hn, -⟩
    · rw [hc]
      simp [Ne.symm ht, Ne.symm hn]
    · rw [hc]
      simp [Ne.symm ht, Ne.symm hn]
  simp only [escapeForTokenStream, List.mem_flatMap, not_exists, not_and]
  exact ⟨fun c _ => (hchar c).1, fun c _ => (hchar c).2⟩

theorem renderFlags_injective : Function.Injective renderFlags := by
  rintro ⟨z, x, u⟩ ⟨z', x', u'⟩ h
  revert h
  revert z x u z' x' u'
  decide +kernel

theorem plain_renderFlags (flags : NumFlags) : '\n' ∉ renderFlags flags := by
  obtain ⟨z, x, u⟩ := flags
  revert z x u
  decide +kernel

theorem not_mem_toDigits {c : Char} (hc : c.isDigit = false) (n : ℕ) : c ∉ Nat.toDigits 10 n := by
  intro h
  have hdigit := Nat.isDigit_of_mem_toDigits (by decide) (by decide) h
  rw [hc] at hdigit
  cases hdigit

theorem toDigits_injective : Function.Injective (Nat.toDigits 10) := by
  intro m n h
  have hm := @Nat.ofDigitChars_toDigits 10 m (by decide) (by decide)
  have hn := @Nat.ofDigitChars_toDigits 10 n (by decide) (by decide)
  rw [← hm, h, hn]

theorem plain_colonNat (n : ℕ) : '\t' ∉ colonNat n ∧ '\n' ∉ colonNat n := by
  simp only [colonNat, List.mem_cons, not_or]
  exact ⟨⟨by decide, not_mem_toDigits rfl n⟩, by decide, not_mem_toDigits rfl n⟩

/-- A number at the end, behind the last colon. -/
theorem append_colonNat_inj {a a' : Text} {m n : ℕ} (h : a ++ colonNat m = a' ++ colonNat n) :
    a = a' ∧ m = n := by
  obtain ⟨ha, hdigits⟩ := append_cons_right (not_mem_toDigits rfl m) (not_mem_toDigits rfl n) h
  exact ⟨ha, toDigits_injective hdigits⟩

/-- Whatever colons the path has. -/
theorem place_inj {s u : Shown} (h : s.place = u.place) :
    s.path = u.path ∧ s.physical = u.physical ∧ s.offset = u.offset := by
  simp only [Shown.place, ← List.append_assoc] at h
  obtain ⟨h, hoffset⟩ := append_colonNat_inj h
  obtain ⟨h, hcol⟩ := append_colonNat_inj h
  obtain ⟨hpath, hline⟩ := append_colonNat_inj h
  exact ⟨hpath, Prod.ext hline hcol, hoffset⟩

theorem virtualPlace_inj {s u : Shown} (h : s.virtualPlace = u.virtualPlace) :
    s.virtual = u.virtual := by
  simp only [Shown.virtualPlace, ← List.append_assoc] at h
  obtain ⟨h, hcol⟩ := append_colonNat_inj h
  obtain ⟨hpath, hline⟩ := append_colonNat_inj h
  exact Prod.ext hpath (Prod.ext hline hcol)

theorem plain_place {s : Shown} (h : s.Plain) :
    ('\t' ∉ s.place ∧ '\n' ∉ s.place) ∧ '\t' ∉ s.virtualPlace ∧ '\n' ∉ s.virtualPlace := by
  have hnat := plain_colonNat
  simp only [Shown.place, Shown.virtualPlace, List.mem_append, not_or]
  exact ⟨⟨⟨h.1.1, (hnat _).1, (hnat _).1, (hnat _).1⟩, h.1.2, (hnat _).2, (hnat _).2, (hnat _).2⟩,
    ⟨h.2.1, (hnat _).1, (hnat _).1⟩, h.2.2, (hnat _).2, (hnat _).2⟩

theorem line_inj {s u : Shown} (hs : s.Plain) (hu : u.Plain) (h : s.line = u.line) : s = u := by
  have hplain := fun s : Shown => plain_escapeForTokenStream s.spelling
  obtain ⟨hkind, h⟩ := append_cons_left s.kind.plain_toString.1 u.kind.plain_toString.1 h
  obtain ⟨hspelling, h⟩ := append_cons_left (hplain s).1 (hplain u).1 h
  obtain ⟨hplace, h⟩ := append_cons_left (plain_place hs).1.1 (plain_place hu).1.1 h
  obtain ⟨hvirtual, hflags⟩ := append_cons_left (plain_place hs).2.1 (plain_place hu).2.1 h
  obtain ⟨hpath, hphysical, hoffset⟩ := place_inj hplace
  have hkind' := TokenKind.toString_injective hkind
  have hspelling' := escapeForTokenStream_injective hspelling
  have hvirtual' := virtualPlace_inj hvirtual
  have hflags' := renderFlags_injective hflags
  cases s
  cases u
  simp_all

theorem newline_not_mem_line {s : Shown} (hs : s.Plain) : '\n' ∉ s.line := by
  simp only [Shown.line, List.mem_append, List.mem_cons, not_or]
  exact ⟨s.kind.plain_toString.2, by decide, (plain_escapeForTokenStream s.spelling).2, by decide,
    (plain_place hs).1.2, by decide, (plain_place hs).2.2, by decide, plain_renderFlags s.flags⟩

/-! ## The tokens of a buffer -/

/-- The loop of `emitTokens`. -/
def collect : ℕ → Lexer → List Token
  | 0, _ => []
  | n + 1, lx => if lx.next.1.kind = .eof then [lx.next.1] else lx.next.1 :: collect n lx.next.2

/-- Every token but the last one takes a character. -/
def tokensOf (buf : Text) : List Token := collect (buf.length + 1) (Lexer.new buf)

def upToEof : List Token → List Token
  | [] => []
  | t :: ts => if t.kind = .eof then [t] else t :: upToEof ts

theorem collect_eq (n : ℕ) (lx : Lexer) : collect n lx = upToEof (Lexer.stream n lx) := by
  induction n generalizing lx with
  | zero => rfl
  | succ n ih => rw [collect, stream_succ, upToEof, ih]

theorem upToEof_append {toks rest : List Token} {eof : Token} (h : ∀ t ∈ toks, t.kind ≠ .eof)
    (heof : eof.kind = .eof) : upToEof (toks ++ eof :: rest) = toks ++ [eof] := by
  induction toks with
  | nil => simp [upToEof, heof]
  | cons t ts ih =>
    rw [List.cons_append, upToEof, if_neg (h t List.mem_cons_self),
      ih fun u hu => h u (List.mem_cons_of_mem t hu), List.cons_append]

theorem length_le_of_tiled {pos : ℕ} {t : Text} {toks : List Token} {eof : Token}
    (h : Tiled pos t toks eof) : toks.length ≤ t.length := by
  induction h with
  | eof => exact Nat.zero_le _
  | token _ hne _ _ _ _ _ ih =>
    have := List.length_pos_iff.2 hne
    simp only [List.length_cons, List.length_append]
    omega

theorem tokensOf_tiles (buf : Text) :
    ∃ toks eof, tokensOf buf = toks ++ [eof] ∧ Tiles buf 0 toks eof := by
  obtain ⟨toks, eof, htiled, hpull⟩ := exists_tiled (Lexer.new buf) (Nat.zero_le _)
  have htiles : Tiles buf 0 toks eof := htiled.tiles rfl (Nat.zero_le _)
  have hlength : toks.length ≤ buf.length := length_le_of_tiled htiled
  refine ⟨toks, eof, ?_, htiles⟩
  have hstream : Lexer.stream (buf.length + 1) (Lexer.new buf) =
      toks ++ eof :: List.replicate (buf.length - toks.length) eof := by
    have hcount : buf.length + 1 - toks.length = buf.length - toks.length + 1 := by omega
    rw [Lexer.stream, hpull]
    simp only [Lexer.new, List.nil_append, List.take_take, min_self]
    rw [List.take_append, List.take_of_length_le (by omega), List.take_replicate,
      Nat.min_eq_left (Nat.sub_le _ _), hcount, List.replicate_succ]
  rw [tokensOf, collect_eq, hstream, upToEof_append htiles.not_eof htiles.eof_kind]

theorem end_eq {buf : Text} {t : Token} (h : t ∈ tokensOf buf) :
    t.end_ = t.begin_ + t.spelling.length := by
  obtain ⟨toks, eof, heq, htiles⟩ := tokensOf_tiles buf
  rw [heq] at h
  obtain ⟨hbegin, hend⟩ := htiles.eof_range
  have hspan : t.begin_ ≤ t.end_ ∧ t.end_ ≤ buf.length := by
    rcases List.mem_append.1 h with ht | ht
    · have hpair := (List.pairwise_append.1 htiles.ordered).2.2 t ht eof (by simp)
      exact ⟨(htiles.nonempty t ht).le, by omega⟩
    · obtain rfl := List.mem_singleton.1 ht
      omega
  rw [htiles.spelling t h, slice, List.length_take, List.length_drop]
  omega

/-! ## The output -/

def shown (b : Buffer) (t : Token) : Shown :=
  ⟨t.kind, t.spelling, b.path, getLineCol b.bytes t.begin_, t.begin_, b.resolveVirtual t.begin_,
    t.flags⟩

def emitTokens (b : Buffer) : Text :=
  (tokensOf b.bytes).flatMap fun t => (shown b t).line ++ ['\n']

/-- No name of the buffer breaks a line. -/
def PlainPaths (b : Buffer) : Prop :=
  PlainPath b.path ∧ ∀ d ∈ b.lineOverrides, PlainPath d.virtualPath

theorem plain_shown {b : Buffer} (hb : PlainPaths b) (t : Token) : (shown b t).Plain := by
  refine ⟨hb.1, ?_⟩
  simp only [shown, Buffer.resolveVirtual]
  cases hd : activeDirective b.lineOverrides t.begin_ with
  | none => exact hb.1
  | some d =>
    simp only
    split_ifs
    · exact hb.1
    · exact hb.2 d (mem_of_activeDirective hd)

/-- The token of a line. -/
def Shown.token (s : Shown) : Token :=
  ⟨s.kind, s.offset, s.offset + s.spelling.length, s.spelling, s.flags⟩

theorem map_token_shown (b : Buffer) :
    ((tokensOf b.bytes).map (shown b)).map Shown.token = tokensOf b.bytes := by
  rw [List.map_map]
  refine (List.map_congr_left fun t ht => ?_).trans (List.map_id _)
  show Token.mk t.kind t.begin_ (t.begin_ + t.spelling.length) t.spelling t.flags = t
  rw [← end_eq ht]

end Driver

end Nslc
