import Nslc.Common.Ending
import Nslc.Parse.Module
/-!
# Parse — a module that is never read

The recovery in the loop of a block stops in front of a token of an
enclosing set and takes nothing. Where no case of an `alt` or `any`
begins with that token the loop comes back to where it was, so the parser
of statements, unlike that of expressions, does not end on every sequence
of tokens.
-/

namespace Nslc

namespace Parse

open AST Nslc.Lex Descent

variable {α : Type}

/-- A loop whose item fails in front of a token it is not allowed to
skip. -/
theorem itemLoop_spins {leave : Rule Bool} {item : Rule α} {recover : ℕ → Rule Bool} {s : State}
    {first second third : List Report} (hleave : leave s = .ok false s first)
    (hitem : item s = .fail s second) (hrecover : ∀ start, recover start s = .ok true s third)
    (k : ℕ) : itemLoop leave item recover k s = .spin := by
  have hattempt : item.attempt s = .ok none s second := by rw [Rule.attempt, hitem]
  have hpos : position s = .ok s.pos s [] := rfl
  -- the turn keeps the items and comes back to `s`
  refine loop_spins (?_ : _ = Outcome.ok _ s (first ++ ([] ++ (second ++ (third ++ []))))) k
  rw [bind_of_ok hleave]
  change Outcome.after first ((position >>= _) s) = _
  rw [bind_of_ok hpos]
  rw [bind_of_ok hattempt]
  change Outcome.after first (Outcome.after [] (Outcome.after second ((recover s.pos >>= _) s))) = _
  rw [bind_of_ok (hrecover s.pos)]
  rfl

theorem itemLoop_of_item_spins {leave : Rule Bool} {item : Rule α} {recover : ℕ → Rule Bool}
    {s : State} {first : List Report} (hleave : leave s = .ok false s first)
    (hitem : item s = .spin) (k : ℕ) : itemLoop leave item recover k s = .spin := by
  have hattempt : item.attempt s = .spin := by rw [Rule.attempt, hitem]
  have hpos : position s = .ok s.pos s [] := rfl
  cases k with
  | zero => rfl
  | succ k =>
    rw [itemLoop, Rule.loop]
    refine bind_of_spin ?_
    rw [bind_of_ok hleave]
    change Outcome.after first ((position >>= _) s) = _
    rw [bind_of_ok hpos]
    rw [bind_of_spin hattempt]
    rfl

/-! ## In front of a definition -/

/-- The keywords of definitions, with which no case begins. -/
def isDefinitionStart (k : TokenKind) : Bool :=
  [TokenKind.func, .function, .proc, .state].contains k

section Hangs

variable {k : TokenKind} (hk : isDefinitionStart k = true) (d : Text) (ts : List Tok) (pos : ℕ)
  {set : TokenSet}

include hk

theorem definitionStart_cases : k = .func ∨ k = .function ∨ k = .proc ∨ k = .state := by
  simpa [isDefinitionStart] using hk

theorem mem_kModuleItem : k ∈ kModuleItem := by
  rcases definitionStart_cases hk with rfl | rfl | rfl | rfl <;> decide

theorem blockEnd_stays : blockEnd ⟨⟨k, d⟩ :: ts, pos⟩ = .ok false ⟨⟨k, d⟩ :: ts, pos⟩ [] := by
  rcases definitionStart_cases hk with rfl | rfl | rfl | rfl <;> rfl

theorem caseItem_fails (self : TokenSet → Rule StmtTree) (fuel : ℕ) (what : String) :
    ∃ notes, caseItem self (fuel + 1) set what ⟨⟨k, d⟩ :: ts, pos⟩ =
      .fail ⟨⟨k, d⟩ :: ts, pos⟩ notes := by
  rcases definitionStart_cases hk with rfl | rfl | rfl | rfl <;> exact ⟨_, rfl⟩

theorem recover_stays (hset : k ∈ set) (start : ℕ) :
    recover set start ⟨⟨k, d⟩ :: ts, pos⟩ = .ok true ⟨⟨k, d⟩ :: ts, pos⟩ [] := by
  have hstop : (⟨k, d⟩ :: ts : List Tok).takeWhile
      (fun t => !(t.kind == .eof || set.contains t.kind)) = [] := by
    simp [hset]
  have hskip : skipUntil set ⟨⟨k, d⟩ :: ts, pos⟩ = .ok () ⟨⟨k, d⟩ :: ts, pos⟩ [] := by
    have hdrop : dropTokens (fun k => !(k == .eof || set.contains k)) ⟨⟨k, d⟩ :: ts, pos⟩ =
        .ok [] ⟨⟨k, d⟩ :: ts, pos⟩ [] := by
      simp only [dropTokens, hstop]
      rfl
    rw [skipUntil, bind_of_ok hdrop]
    rfl
  rw [recover, bind_of_ok hskip]
  rcases definitionStart_cases hk with rfl | rfl | rfl | rfl <;> rfl

/-- In front of the keyword of a definition the cases of `alt` and `any`
come to no end. -/
theorem cases_hang (hset : k ∈ set) (self : TokenSet → Rule StmtTree) (what : String) (fuel : ℕ) :
    itemLoop blockEnd (caseItem self fuel set what) (recover set) fuel ⟨⟨k, d⟩ :: ts, pos⟩ =
      .spin := by
  cases fuel with
  | zero => rfl
  | succ fuel =>
    have hcase : ∃ notes, caseItem self (fuel + 1) set what ⟨⟨k, d⟩ :: ts, pos⟩ =
        .fail ⟨⟨k, d⟩ :: ts, pos⟩ notes := caseItem_fails hk d ts pos self fuel what
    obtain ⟨notes, hfails⟩ := hcase
    exact itemLoop_spins (blockEnd_stays hk d ts pos) hfails (recover_stays hk d ts pos hset) _

theorem parseActionStatement_hangs (hset : k ∈ set) {kw : TokenKind} (hkw : kw = .alt ∨ kw = .any)
    (a b : Text) (fuel : ℕ) :
    parseActionStatement fuel set ⟨⟨kw, a⟩ :: ⟨.lbrace, b⟩ :: ⟨k, d⟩ :: ts, pos⟩ = .spin := by
  cases fuel with
  | zero => rfl
  | succ fuel =>
    have hcases := cases_hang hk d ts (pos + 1 + 1) hset (parseActionStatement fuel)
    rcases hkw with rfl | rfl
    · exact congrArg (Outcome.after []) (bind_of_spin (hcases _ fuel))
    · exact congrArg (Outcome.after []) (bind_of_spin (hcases _ fuel))

end Hangs

/-- **The recovery can hang**: a module that begins with `alt {` or
`any {` and goes on with the keyword of a definition is never read,
whatever follows and however many iterations the parser is given. The
recovery stops in front of the keyword, which belongs to the module, and
the loop of the block tries its case again. -/
theorem parseModuleBlock_hangs {kw k : TokenKind} (hkw : kw = .alt ∨ kw = .any)
    (hk : isDefinitionStart k = true) (set : TokenSet) (m x b a b' d : Text) (ts : List Tok)
    (pos fuel : ℕ) :
    parseModuleBlock fuel set ⟨⟨.module_, m⟩ :: ⟨.identifier, x⟩ :: ⟨.lbrace, b⟩ :: ⟨kw, a⟩ ::
      ⟨.lbrace, b'⟩ :: ⟨k, d⟩ :: ts, pos⟩ = .spin := by
  have hset : k ∈ set ++ kModuleItem := List.mem_append_right set (mem_kModuleItem hk)
  have hbody := parseActionStatement_hangs hk d ts (pos + 1 + 1 + 1) hset hkw a b' fuel
  have hitem : parseModuleItem fuel (set ++ kModuleItem)
      ⟨⟨kw, a⟩ :: ⟨.lbrace, b'⟩ :: ⟨k, d⟩ :: ts, pos + 1 + 1 + 1⟩ = .spin := by
    rcases hkw with rfl | rfl
    · exact congrArg (Outcome.after [] ∘ Outcome.after []) (bind_of_spin hbody)
    · exact congrArg (Outcome.after [] ∘ Outcome.after []) (bind_of_spin hbody)
  have hleave : moduleEnd ⟨⟨kw, a⟩ :: ⟨.lbrace, b'⟩ :: ⟨k, d⟩ :: ts, pos + 1 + 1 + 1⟩ =
      .ok false ⟨⟨kw, a⟩ :: ⟨.lbrace, b'⟩ :: ⟨k, d⟩ :: ts, pos + 1 + 1 + 1⟩ [] := by
    rcases hkw with rfl | rfl <;> rfl
  have hitems : itemLoop moduleEnd (parseModuleItem fuel (set ++ kModuleItem))
      (recoverIn kModuleItem (set ++ kModuleItem)) fuel
      ⟨⟨kw, a⟩ :: ⟨.lbrace, b'⟩ :: ⟨k, d⟩ :: ts, pos + 1 + 1 + 1⟩ = .spin :=
    itemLoop_of_item_spins hleave hitem fuel
  exact congrArg (Outcome.after [] ∘ Outcome.after [] ∘ Outcome.after []) (bind_of_spin hitems)

/-- `module m { alt { func` -/
theorem parseModuleBlock_hangs_func :
    parseModuleBlock 1000 [] ⟨[⟨.module_, "module".toList⟩, ⟨.identifier, ['m']⟩, ⟨.lbrace, ['{']⟩,
      ⟨.alt, "alt".toList⟩, ⟨.lbrace, ['{']⟩, ⟨.func, "func".toList⟩], 0⟩ = .spin :=
  parseModuleBlock_hangs (.inl rfl) rfl [] _ _ _ _ _ _ [] 0 1000

end Parse

end Nslc
