import Nslc.Lower.Widths
import Nslc.Sema.Verdicts
/-!
# Sema — the layout of structs

A struct is laid out twice. `declStruct` numbers the bits from the first
member up and interns a `StructType` with these offsets; the checker of
S18 recomputes the offsets from the last member up, and puts them on the
symbol only. The type is never touched again, so the two agree exactly
where the direction makes no difference.
-/

namespace Nslc

namespace Sema

open AST ASTToMLIR

/-! ## The tables -/

structure StructType where
  name : Ident
  fields : List FieldInfo
  totalWidth : ℕ
  deriving DecidableEq, Repr

structure StructTypeSymbol where
  name : Ident
  fields : List FieldInfo
  totalWidth : ℕ
  type : StructType
  deriving DecidableEq, Repr

/-- The struct symbols of the global scope and `structCache`. -/
structure StructTables where
  symbols : List StructTypeSymbol
  interned : List StructType
  deriving DecidableEq, Repr

namespace StructTables

/-- `TypeSystem::structType`: the first type interned under a name stays. -/
def structType (t : StructTables) (name : Ident) (fields : List FieldInfo) (totalWidth : ℕ) :
    StructType × StructTables :=
  match t.interned.find? fun ty => ty.name = name with
  | some ty => (ty, t)
  | none =>
    (⟨name, fields, totalWidth⟩,
      { t with interned := t.interned ++ [⟨name, fields, totalWidth⟩] })

end StructTables

def structSymbol (loc : Loc) (name : Ident) (members : List StructMember) : Symbol :=
  ⟨.structType, name, loc, some (.struct name (Walker.structWidth members))⟩

/-- `declStruct`, what it does beside the scope: the symbol gets its
fields and the type interned for them. The parser leaves structs among
the items of a unit only. -/
def declStruct (w : Walker) (t : StructTables) (d : Decl) : StructTables :=
  match d with
  | .struct loc name members =>
    match w.table.declare (structSymbol loc name members) with
    | none => t
    | some _ =>
      let fields := structFieldInfos 0 members
      let total := Walker.structWidth members
      let (type, t) := t.structType name fields total
      { t with symbols := t.symbols ++ [⟨name, fields, total, type⟩] }
  | _ => t

/-- The walk over the items from the walker `w` on. -/
def resolveStructs (cu : CompilationUnit) (w : Walker) (t : StructTables) : List Decl → StructTables
  | [] => t
  | d :: ds => resolveStructs cu (w.visitDecl cu d) (declStruct w t d) ds

/-- The walker at the first item. -/
def Walker.global : Walker := Walker.enterScope ⟨⟨[], []⟩, [], [], []⟩ .global

/-! ## S18 -/

/-- Unsigned 64-bit subtraction. -/
def sub64 (a b : ℕ) : ℕ := (a + (2 ^ 64 - b % 2 ^ 64)) % 2 ^ 64

/-- The loop of the S18 checker, behind members of `cumulative` bits. -/
def msbFields (total : ℕ) : ℕ → List FieldInfo → List FieldInfo
  | _, [] => []
  | cumulative, f :: fs =>
    { f with offset := sub64 (sub64 total cumulative) f.width } ::
      msbFields total ((cumulative + f.width) % 2 ^ 64) fs

def repack (st : StructTypeSymbol) : StructTypeSymbol :=
  if st.fields.isEmpty then st else { st with fields := msbFields st.totalWidth 0 st.fields }

/-- The S18 checker on one item. -/
def checkS18 (table : SymbolTable) (t : StructTables) (d : Decl) : StructTables :=
  match d with
  | .struct _ name _ =>
    match table.lookup name with
    | none => t
    | some sym =>
      if sym.kind ≠ .structType then t
      else { t with symbols := t.symbols.map fun st => if st.name = name then repack st else st }
  | _ => t

/-- The struct tables after `Sema::run`. -/
def structTables (cu : CompilationUnit) : StructTables :=
  cu.foldl (checkS18 (runResolutionPass cu).table) (resolveStructs cu .global ⟨[], []⟩ cu)

/-! ## The property and its condition -/

/-- The first field at the top and each right above the next, all of
`[0, total)` covered. -/
structure Packed (fields : List FieldInfo) (total : ℕ) : Prop where
  ordered : fields.Pairwise fun f g => g.offset + g.width ≤ f.offset
  covers : ∀ b, (∃ f ∈ fields, f.offset ≤ b ∧ b < f.offset + f.width) ↔ b < total

/-- A declaration at which the name was free; the others are reported as
duplicates and leave no symbol. -/
def DeclaresStruct (cu : CompilationUnit) (name : Ident) (members : List StructMember) : Prop :=
  ∃ pre post loc, cu = pre ++ .struct loc name members :: post ∧
    ((Walker.global.visitDecls cu pre).table.declare (structSymbol loc name members)).isSome

/-- **One layout.** The symbol of every struct has the members of its
declaration, packed with the first one at the top, and its type has the
same fields. -/
def OneLayout (cu : CompilationUnit) : Prop :=
  ∀ name members, DeclaresStruct cu name members →
    ∃ st ∈ (structTables cu).symbols, st.name = name ∧
      st.fields.map (fun f => (f.name, f.width)) = members.map (fun m => (m.name, widthOr1 m.width)) ∧
      Packed st.fields st.totalWidth ∧ st.type.fields = st.fields

/-! ## The global scope only grows -/

/-- `ss` below a scope that begins with the symbols of `s`. -/
def Grown (s : Scope) (ss env : List Scope) : Prop :=
  ∃ s', env = s' :: ss ∧ s'.kind = s.kind ∧ s.symbols <+: s'.symbols

theorem Grown.refl (s : Scope) (ss : List Scope) : Grown s ss (s :: ss) :=
  ⟨s, rfl, rfl, List.prefix_refl _⟩

theorem insert_grows {s s' : Scope} {sym : Symbol} (h : s.insert sym = some s') :
    s'.symbols = s.symbols ++ [sym] := by
  unfold Scope.insert at h
  split at h
  · cases h
  · obtain rfl := Option.some.inj h
    rfl

theorem grown_addSymbol (s : Scope) (ss : List Scope) (sym : Symbol) :
    Grown s ss (addSymbol (s :: ss) sym) := by
  refine ⟨(s.insert sym).getD s, rfl, ?_⟩
  cases h : s.insert sym with
  | none => exact ⟨rfl, List.prefix_refl _⟩
  | some s' =>
    refine ⟨kind_insert h, ?_⟩
    rw [Option.getD_some, insert_grows h]
    exact List.prefix_append _ _

theorem grown_addMissing (s : Scope) (ss : List Scope) (sym : Symbol) :
    Grown s ss (addMissing (s :: ss) sym) := by
  unfold addMissing
  split
  · exact .refl s ss
  · exact grown_addSymbol s ss sym

theorem grown_threadAll {α : Type} {f : List Scope → α → List Scope × List Binding}
    {ss : List Scope} (hf : ∀ s a, Grown s ss (f (s :: ss) a).1) (as : List α) (s : Scope) :
    Grown s ss (threadAll f (s :: ss) as).1 := by
  induction as generalizing s with
  | nil => exact .refl s ss
  | cons a as ih =>
    obtain ⟨s', hs', hkind, hsyms⟩ := hf s a
    obtain ⟨s'', hs'', hkind', hsyms'⟩ := ih s'
    refine ⟨s'', ?_, hkind'.trans hkind, hsyms.trans hsyms'⟩
    simp only [threadAll, hs', hs'']

/-- An item takes no symbol out of the scope it is declared in. -/
theorem grown_itemBindings (cu : CompilationUnit) (d : Decl) (s : Scope) (ss : List Scope) :
    Grown s ss (itemBindings cu (s :: ss) d).1 := by
  cases d with
  | topLevelParam p => exact grown_addSymbol s ss _
  | declare name modifier clockName resetName headerParams ports => exact .refl s ss
  | module loc name internals actions funcs procs => exact .refl s ss
  | port p =>
    rw [itemBindings, portBindings, declareIn_fst]
    exact grown_addSymbol s ss _
  | stateName loc names =>
    exact grown_threadAll (fun s x => by rw [declareIn_fst]; exact grown_addSymbol s ss _) names s
  | firstState target => exact .refl s ss
  | submodule loc templateName instances paramAssigns =>
    exact grown_threadAll (fun s x => by rw [declareIn_fst]; exact grown_addSymbol s ss _)
      instances s
  | funcDefn loc name body =>
    rcases name with _ | ⟨x, _ | ⟨y, rest⟩⟩
    · exact .refl s ss
    · exact grown_addMissing s ss _
    · exact .refl s ss
  | procDefn loc name body => exact grown_addMissing s ss _
  | stateDefn loc name body => exact .refl s ss
  | _ =>
    rw [itemBindings, declareIn_fst]
    exact grown_addSymbol s ss _

/-- The walker stands among the items, with the global scope `g` open. -/
structure Walker.AtTop (w : Walker) (g : Scope) : Prop where
  scopes : w.table.scopes = [g]
  kind : g.kind = .global

theorem atTop_global : Walker.global.AtTop ⟨.global, []⟩ := ⟨rfl, rfl⟩

variable {cu : CompilationUnit} {w : Walker} {g : Scope} {t : StructTables}

theorem Walker.AtTop.visitDecl (hw : w.AtTop g) (cu : CompilationUnit) (d : Decl) :
    ∃ g', (w.visitDecl cu d).AtTop g' ∧ g.symbols <+: g'.symbols := by
  have htop : ModuleTop (w.table.scopes.map Scope.kind) := by
    rw [hw.scopes]
    exact .inr (by simp [hw.kind])
  obtain ⟨g', hg', hkind, hsyms⟩ := grown_itemBindings cu d g []
  refine ⟨g', ⟨?_, hkind.trans hw.kind⟩, hsyms⟩
  rw [scopes_visitDecl cu d htop, hw.scopes]
  exact hg'

theorem Walker.AtTop.visitDecls (hw : w.AtTop g) (cu : CompilationUnit) (ds : List Decl) :
    ∃ g', (w.visitDecls cu ds).AtTop g' ∧ g.symbols <+: g'.symbols := by
  induction ds generalizing w g with
  | nil => exact ⟨g, hw, List.prefix_refl _⟩
  | cons d ds ih =>
    obtain ⟨g₁, hw₁, hsyms₁⟩ := hw.visitDecl cu d
    obtain ⟨g₂, hw₂, hsyms₂⟩ := ih hw₁
    exact ⟨g₂, hw₂, hsyms₁.trans hsyms₂⟩

theorem visitDecls_append (cu : CompilationUnit) (w : Walker) (ds es : List Decl) :
    w.visitDecls cu (ds ++ es) = (w.visitDecls cu ds).visitDecls cu es := by
  induction ds generalizing w with
  | nil => rfl
  | cons d ds ih => exact ih _

theorem lookupLocal_of_prefix {s s' : Scope} (h : s.symbols <+: s'.symbols) {x : Ident}
    {sym : Symbol} (hs : s.lookupLocal x = some sym) : s'.lookupLocal x = some sym := by
  obtain ⟨rest, hrest⟩ := h
  rw [Scope.lookupLocal, ← hrest, List.find?_append]
  rw [Scope.lookupLocal] at hs
  rw [hs]
  rfl

/-! ## What the resolution pass records -/

/-- The symbol `declStruct` makes. -/
def lsbSymbol (name : Ident) (members : List StructMember) : StructTypeSymbol :=
  let fields := structFieldInfos 0 members
  let total := Walker.structWidth members
  ⟨name, fields, total, ⟨name, fields, total⟩⟩

/-- The tables agree with the global scope: a name that is free there has
no type yet. -/
structure Recorded (g : Scope) (t : StructTables) : Prop where
  interned : ∀ ty ∈ t.interned, ty.name ∈ t.symbols.map StructTypeSymbol.name
  known : ∀ st ∈ t.symbols, ∃ sym, g.lookupLocal st.name = some sym ∧ sym.kind = .structType

theorem Recorded.of_prefix {g' : Scope} (h : Recorded g t) (hg : g.symbols <+: g'.symbols) :
    Recorded g' t where
  interned := h.interned
  known := fun st hst => by
    obtain ⟨sym, hsym, hkind⟩ := h.known st hst
    exact ⟨sym, lookupLocal_of_prefix hg hsym, hkind⟩

theorem declare_isSome_iff (hw : w.AtTop g) (sym : Symbol) :
    (w.table.declare sym).isSome ↔ g.lookupLocal sym.name = none := by
  rw [declare_of_insert hw.scopes, Option.isSome_map, Scope.insert]
  cases g.lookupLocal sym.name <;> simp

/-- A declaration that goes through adds its symbol, any other item
leaves the tables. -/
theorem declStruct_eq (hw : w.AtTop g) (ht : Recorded g t) (d : Decl) :
    declStruct w t d = t ∨
      ∃ loc name members, d = .struct loc name members ∧
        (w.table.declare (structSymbol loc name members)).isSome ∧
        declStruct w t d =
          ⟨t.symbols ++ [lsbSymbol name members], t.interned ++ [(lsbSymbol name members).type]⟩ := by
  cases d with
  | struct loc name members =>
    unfold declStruct
    cases hd : w.table.declare (structSymbol loc name members) with
    | none => exact .inl (by simp only [hd])
    | some table =>
      have hfree : g.lookupLocal name = none :=
        (declare_isSome_iff hw (structSymbol loc name members)).1 (by rw [hd]; rfl)
      have hnew : (t.interned.find? fun ty => ty.name = name) = none := by
        rw [List.find?_eq_none]
        intro ty hty hname
        obtain ⟨st, hst, hstname⟩ := List.mem_map.1 (ht.interned ty hty)
        obtain ⟨sym, hsym, -⟩ := ht.known st hst
        rw [hstname, of_decide_eq_true hname, hfree] at hsym
        cases hsym
      refine .inr ⟨loc, name, members, rfl, by simp [hd], ?_⟩
      simp only [hd, StructTables.structType, hnew]
      rfl
  | _ => exact .inl rfl

/-- **The step of the walk.** -/
theorem recorded_step (hw : w.AtTop g) (ht : Recorded g t) (cu : CompilationUnit) (d : Decl) :
    ∃ g', (w.visitDecl cu d).AtTop g' ∧ g.symbols <+: g'.symbols ∧
      Recorded g' (declStruct w t d) := by
  obtain ⟨g', hw', hsyms⟩ := hw.visitDecl cu d
  refine ⟨g', hw', hsyms, ?_⟩
  rcases declStruct_eq hw ht d with heq | ⟨loc, name, members, rfl, hdecl, heq⟩
  · rw [heq]
    exact ht.of_prefix hsyms
  · -- the symbol that went into the scope
    have hsym : ∃ sym, g'.lookupLocal name = some sym ∧ sym.kind = .structType := by
      obtain ⟨table, htable⟩ := Option.isSome_iff_exists.1 hdecl
      have hins := declare_of_insert hw.scopes (structSymbol loc name members)
      rw [htable] at hins
      obtain ⟨g₁, hg₁, htab⟩ := Option.map_eq_some_iff.1 hins.symm
      have hscopes : (w.visitDecl cu (.struct loc name members)).table.scopes = [g₁] := by
        unfold structSymbol at htable
        simp only [Walker.visitDecl, Walker.declareThen, htable, ← htab]
        exact congrArg SymbolTable.scopes (table_visitExprs _ _)
      obtain rfl : g' = g₁ := (List.cons.inj (hw'.scopes.symm.trans hscopes)).1
      refine ⟨structSymbol loc name members, ?_, rfl⟩
      have hfree : g.lookupLocal name = none :=
        (declare_isSome_iff hw (structSymbol loc name members)).1 hdecl
      rw [Scope.lookupLocal] at hfree ⊢
      rw [insert_grows hg₁, List.find?_append, hfree]
      simp [structSymbol]
    rw [heq]
    refine ⟨fun ty hty => ?_, fun st hst => ?_⟩
    · rcases List.mem_append.1 hty with hty | hty
      · rw [List.map_append]
        exact List.mem_append_left _ (ht.interned ty hty)
      · rw [List.mem_singleton.1 hty]
        simp [lsbSymbol]
    · rcases List.mem_append.1 hst with hst | hst
      · exact (ht.of_prefix hsyms).known st hst
      · rw [List.mem_singleton.1 hst]
        exact hsym

/-- The walk over the remaining items: the tables stay recorded, keep
what they have, and get the symbol of every declaration that goes
through, and no other. -/
theorem resolveStructs_spec (hw : w.AtTop g) (ht : Recorded g t) (cu : CompilationUnit)
    (ds : List Decl) :
    ∃ g', (w.visitDecls cu ds).AtTop g' ∧ Recorded g' (resolveStructs cu w t ds) ∧
      ∀ st, st ∈ (resolveStructs cu w t ds).symbols ↔
        st ∈ t.symbols ∨ ∃ pre post loc name members,
          ds = pre ++ .struct loc name members :: post ∧ st = lsbSymbol name members ∧
          ((w.visitDecls cu pre).table.declare (structSymbol loc name members)).isSome := by
  induction ds generalizing w g t with
  | nil => exact ⟨g, hw, ht, fun st => by simp [resolveStructs]⟩
  | cons d ds ih =>
    obtain ⟨g₁, hw₁, -, ht₁⟩ := recorded_step hw ht cu d
    obtain ⟨g', hw', ht', hmem⟩ := ih hw₁ ht₁
    refine ⟨g', hw', ht', fun st => ?_⟩
    rw [resolveStructs, hmem]
    constructor
    · rintro (hst | ⟨pre, post, loc, name, members, rfl, hst, hdecl⟩)
      · rcases declStruct_eq hw ht d with heq | ⟨loc, name, members, rfl, hdecl, heq⟩
        · rw [heq] at hst
          exact .inl hst
        · rw [heq] at hst
          rcases List.mem_append.1 hst with hst | hst
          · exact .inl hst
          · exact .inr ⟨[], ds, loc, name, members, rfl, List.mem_singleton.1 hst, hdecl⟩
      · exact .inr ⟨d :: pre, post, loc, name, members, rfl, hst, hdecl⟩
    · rintro (hst | ⟨pre, post, loc, name, members, hds, hst, hdecl⟩)
      · refine .inl ?_
        rcases declStruct_eq hw ht d with heq | ⟨loc, name, members, rfl, hdecl, heq⟩
        · rw [heq]
          exact hst
        · rw [heq]
          exact List.mem_append_left _ hst
      · cases pre with
        | nil =>
          obtain ⟨rfl, rfl⟩ := List.cons.inj hds
          refine .inl ?_
          rcases declStruct_eq hw ht (.struct loc name members) with heq | ⟨_, _, _, hd, -, heq⟩
          · -- the declaration goes through
            exfalso
            obtain ⟨table, htable⟩ := Option.isSome_iff_exists.1 hdecl
            have hlen := congrArg (fun t => t.symbols.length) heq
            simp only [declStruct, Walker.visitDecls] at hlen htable
            rw [htable] at hlen
            simp only [StructTables.structType] at hlen
            split at hlen <;> simp at hlen
          · cases hd
            rw [heq, hst]
            exact List.mem_append_right _ (List.mem_singleton_self _)
        | cons d' pre =>
          obtain ⟨rfl, rfl⟩ := List.cons.inj hds
          exact .inr ⟨pre, post, loc, name, members, rfl, hst, hdecl⟩

/-! ## What S18 makes of it -/

theorem msbFields_idem (total c : ℕ) (fs : List FieldInfo) :
    msbFields total c (msbFields total c fs) = msbFields total c fs := by
  induction fs generalizing c with
  | nil => rfl
  | cons f fs ih => simp only [msbFields, ih]

theorem isEmpty_msbFields (total c : ℕ) (fs : List FieldInfo) :
    (msbFields total c fs).isEmpty = fs.isEmpty := by
  cases fs <;> rfl

theorem repack_repack (st : StructTypeSymbol) : repack (repack st) = repack st := by
  unfold repack
  by_cases h : st.fields.isEmpty = true
  · simp [h]
  · simp [h, isEmpty_msbFields, msbFields_idem]

@[simp] theorem name_repack (st : StructTypeSymbol) : (repack st).name = st.name := by
  unfold repack
  split <;> rfl

/-- The struct items the checker finds a struct under the name of. -/
def checkedBy (table : SymbolTable) (ds : List Decl) (name : Ident) : Prop :=
  ∃ loc members sym, .struct loc name members ∈ ds ∧ table.lookup name = some sym ∧
    sym.kind = .structType

open Classical in
theorem foldl_checkS18 (table : SymbolTable) (ds : List Decl) (t : StructTables) :
    (ds.foldl (checkS18 table) t).symbols =
      t.symbols.map fun st => if checkedBy table ds st.name then repack st else st := by
  induction ds generalizing t with
  | nil => simp [checkedBy]
  | cons d ds ih =>
    rw [List.foldl_cons, ih]
    -- one item repacks the symbols of its name
    have hstep : (checkS18 table t d).symbols =
        t.symbols.map fun st => if checkedBy table [d] st.name then repack st else st := by
      cases d with
      | struct loc name members =>
        have hone : ∀ x, checkedBy table [.struct loc name members] x ↔
            x = name ∧ ∃ sym, table.lookup name = some sym ∧ sym.kind = .structType := by
          intro x
          constructor
          · rintro ⟨loc', members', sym, hmem, hsym⟩
            cases List.mem_singleton.1 hmem
            exact ⟨rfl, sym, hsym⟩
          · rintro ⟨rfl, sym, hsym⟩
            exact ⟨loc, members, sym, List.mem_singleton_self _, hsym⟩
        simp only [checkS18, hone]
        cases hl : table.lookup name with
        | none => simp
        | some sym =>
          by_cases hk : sym.kind = .structType
          · simp [hk]
          · simp [hk]
      | _ => simp [checkS18, checkedBy]
    rw [hstep, List.map_map]
    refine List.map_congr_left fun st _ => ?_
    have hcons : checkedBy table (d :: ds) st.name ↔
        checkedBy table [d] st.name ∨ checkedBy table ds st.name := by
      constructor
      · rintro ⟨loc, members, sym, hmem, hsym⟩
        rcases List.mem_cons.1 hmem with rfl | hmem
        · exact .inl ⟨loc, members, sym, List.mem_singleton_self _, hsym⟩
        · exact .inr ⟨loc, members, sym, hmem, hsym⟩
      · rintro (⟨loc, members, sym, hmem, hsym⟩ | ⟨loc, members, sym, hmem, hsym⟩)
        · exact ⟨loc, members, sym, List.mem_cons.2 (.inl (List.mem_singleton.1 hmem)), hsym⟩
        · exact ⟨loc, members, sym, List.mem_cons_of_mem _ hmem, hsym⟩
    simp only [Function.comp_apply, hcons]
    by_cases h₁ : checkedBy table [d] st.name <;> by_cases h₂ : checkedBy table ds st.name <;>
      simp [h₁, h₂, repack_repack]

/-- **After `Sema::run`** the symbols are those of the declarations that
went through, with the offsets of S18. -/
theorem mem_structTables_iff (cu : CompilationUnit) (st : StructTypeSymbol) :
    st ∈ (structTables cu).symbols ↔
      ∃ name members, DeclaresStruct cu name members ∧ st = repack (lsbSymbol name members) := by
  classical
  obtain ⟨g, hw, ht, hmem⟩ := resolveStructs_spec atTop_global
    (t := ⟨[], []⟩) ⟨by simp, by simp⟩ cu cu
  have hlookup : ∀ x sym, g.lookupLocal x = some sym →
      (runResolutionPass cu).table.lookup x = some sym := by
    intro x sym hsym
    have hpass : (runResolutionPass cu).table =
        ⟨[], g :: (Walker.global.visitDecls cu cu).table.retired⟩ := by
      show (Walker.global.visitDecls cu cu).leaveScope.table = _
      simp only [Walker.leaveScope, SymbolTable.leaveScope, hw.scopes]
    rw [hpass]
    simp [SymbolTable.lookup, SymbolTable.findIn, hsym]
  have hchecked : ∀ st ∈ (resolveStructs cu .global ⟨[], []⟩ cu).symbols,
      checkedBy (runResolutionPass cu).table cu st.name := by
    intro st hst
    obtain ⟨sym, hsym, hkind⟩ := ht.known st hst
    rcases (hmem st).1 hst with hst | ⟨pre, post, loc, name, members, hcu, rfl, -⟩
    · cases hst
    · refine ⟨loc, members, sym, ?_, hlookup _ _ hsym, hkind⟩
      rw [hcu]
      exact List.mem_append_right _ (List.mem_cons_self ..)
  rw [structTables, foldl_checkS18, List.mem_map]
  constructor
  · rintro ⟨st₀, hst₀, rfl⟩
    rw [if_pos (hchecked st₀ hst₀)]
    rcases (hmem st₀).1 hst₀ with hnone | ⟨pre, post, loc, name, members, hcu, rfl, hdecl⟩
    · cases hnone
    · exact ⟨name, members, ⟨pre, post, loc, hcu, hdecl⟩, rfl⟩
  · rintro ⟨name, members, ⟨pre, post, loc, hcu, hdecl⟩, rfl⟩
    have hst := (hmem (lsbSymbol name members)).2
      (.inr ⟨pre, post, loc, name, members, hcu, rfl, hdecl⟩)
    exact ⟨_, hst, if_pos (hchecked _ hst)⟩

/-! ## One struct -/

theorem widthOr1_pos (width : Option Expr) : 0 < widthOr1 width := by
  unfold widthOr1
  split <;> omega

theorem widthOr1_lt (width : Option Expr) : widthOr1 width < 2 ^ 64 := by
  unfold widthOr1
  have hlt : declaredWidth width < 2 ^ 64 := by
    rw [declaredWidth_eq]
    exact Nat.mod_lt _ (by decide)
  split <;> omega

theorem map_structFieldInfos (total : ℕ) (members : List StructMember) :
    (structFieldInfos total members).map (fun f => (f.name, f.width)) =
      members.map fun m => (m.name, widthOr1 m.width) := by
  induction members generalizing total with
  | nil => rfl
  | cons m ms ih => simp [structFieldInfos, ih]

theorem map_msbFields (total c : ℕ) (fs : List FieldInfo) :
    (msbFields total c fs).map (fun f => (f.name, f.width)) = fs.map fun f => (f.name, f.width) := by
  induction fs generalizing c with
  | nil => rfl
  | cons f fs ih => simp [msbFields, ih]

@[simp] theorem fields_repack (st : StructTypeSymbol) :
    (repack st).fields = msbFields st.totalWidth 0 st.fields := by
  unfold repack
  cases hf : st.fields with
  | nil => simp [msbFields, hf]
  | cons f fs => simp

@[simp] theorem totalWidth_repack (st : StructTypeSymbol) : (repack st).totalWidth = st.totalWidth := by
  unfold repack
  split <;> rfl

@[simp] theorem type_repack (st : StructTypeSymbol) : (repack st).type = st.type := by
  unfold repack
  split <;> rfl

/-- The bits of the members from the total `c` on. -/
def sumFrom (c : ℕ) (members : List StructMember) : ℕ :=
  c + (members.map fun m => widthOr1 m.width).sum

theorem foldl_width (c : ℕ) (members : List StructMember) :
    members.foldl (fun total m => (total + widthOr1 m.width) % 2 ^ 64) (c % 2 ^ 64) =
      sumFrom c members % 2 ^ 64 := by
  induction members generalizing c with
  | nil => simp [sumFrom]
  | cons m ms ih =>
    rw [List.foldl_cons, Nat.mod_add_mod, ih]
    simp [sumFrom, Nat.add_assoc]

theorem structWidth_eq (members : List StructMember) :
    Walker.structWidth members = (members.map fun m => widthOr1 m.width).sum % 2 ^ 64 := by
  have h := foldl_width 0 members
  rw [sumFrom, Nat.zero_add, Nat.zero_mod] at h
  exact h

theorem sub64_eq {a b : ℕ} (h : b ≤ a) (ha : a < 2 ^ 64) : sub64 a b = a - b := by
  unfold sub64
  omega

/-- **The symbol's layout.** Where the total fits 64 bits the members are
packed, the first one at the top; `c` bits above them are taken. -/
theorem packed_msbFields {total c : ℕ} {fs : List FieldInfo} (hpos : ∀ f ∈ fs, 0 < f.width)
    (ht : total = c + (fs.map FieldInfo.width).sum) (hlt : total < 2 ^ 64) :
    Packed (msbFields total c fs) (total - c) := by
  induction fs generalizing c with
  | nil =>
    refine ⟨.nil, fun b => ?_⟩
    simp only [msbFields, List.not_mem_nil, false_and, exists_false, false_iff, not_lt]
    simp only [List.map_nil, List.sum_nil] at ht
    omega
  | cons f fs ih =>
    simp only [List.map_cons, List.sum_cons] at ht
    have hc : (c + f.width) % 2 ^ 64 = c + f.width := Nat.mod_eq_of_lt (by omega)
    have hoff : sub64 (sub64 total c) f.width = total - (c + f.width) := by
      rw [sub64_eq (by omega : c ≤ total) hlt, sub64_eq (by omega) (by omega)]
      omega
    have hrest := ih (c := c + f.width) (fun g hg => hpos g (by simp [hg])) (by omega)
    rw [msbFields, hoff, hc]
    refine ⟨List.pairwise_cons.2 ⟨fun g hg => ?_, hrest.ordered⟩, fun b => ?_⟩
    · -- what lies below ends below
      show g.offset + g.width ≤ total - (c + f.width)
      by_contra hge
      have hpg : 0 < g.width := by
        have hw : (g.name, g.width) ∈ fs.map fun f => (f.name, f.width) := by
          rw [← map_msbFields total (c + f.width) fs]
          exact List.mem_map.2 ⟨g, hg, rfl⟩
        obtain ⟨g', hg', heq⟩ := List.mem_map.1 hw
        have hpos' := hpos g' (by simp [hg'])
        simp only [Prod.mk.injEq] at heq
        omega
      have htop := (hrest.covers (g.offset + g.width - 1)).1 ⟨g, hg, by omega, by omega⟩
      omega
    · constructor
      · rintro ⟨g, hg, hlo, hhi⟩
        rcases List.mem_cons.1 hg with rfl | hg
        · simp only at hlo hhi
          omega
        · have := (hrest.covers b).1 ⟨g, hg, hlo, hhi⟩
          omega
      · intro hb
        by_cases hlow : b < total - (c + f.width)
        · obtain ⟨g, hg, hlo, hhi⟩ := (hrest.covers b).2 hlow
          exact ⟨g, List.mem_cons_of_mem _ hg, hlo, hhi⟩
        · exact ⟨_, List.mem_cons_self .., by simp only; omega, by simp only; omega⟩

theorem map_width_structFieldInfos (total : ℕ) (members : List StructMember) :
    (structFieldInfos total members).map FieldInfo.width =
      members.map fun m => widthOr1 m.width := by
  have h := congrArg (List.map Prod.snd) (map_structFieldInfos total members)
  simpa [List.map_map, Function.comp_def] using h

/-- **Symbol and type agree on at most one member.** -/
theorem one_member_of_agree {members : List StructMember} {total : ℕ}
    (htotal : total = Walker.structWidth members)
    (hp : Packed (msbFields total 0 (structFieldInfos 0 members)) total)
    (hf : structFieldInfos 0 members = msbFields total 0 (structFieldInfos 0 members)) :
    members.length ≤ 1 := by
  match members with
  | [] => simp
  | [m] => simp
  | m :: m' :: ms =>
    exfalso
    have hpos := widthOr1_pos m'.width
    have hw := widthOr1_lt m.width
    have hlt : total < 2 ^ 64 := by
      rw [htotal, structWidth_eq]
      exact Nat.mod_lt _ (by decide)
    -- the first member is at bit zero and at the top
    have hzero : sub64 (sub64 total 0) (widthOr1 m.width) = 0 := by
      have hhead := congrArg (fun fs => (fs.head?).map FieldInfo.offset) hf
      simpa [structFieldInfos, msbFields] using hhead.symm
    have hsame : total = widthOr1 m.width := by
      unfold sub64 at hzero
      omega
    have hfields : structFieldInfos 0 (m :: m' :: ms) =
        ⟨m.name, widthOr1 m.width, 0⟩ :: ⟨m'.name, widthOr1 m'.width, widthOr1 m.width⟩ ::
          structFieldInfos ((widthOr1 m.width + widthOr1 m'.width) % 2 ^ 64) ms := by
      simp only [structFieldInfos, Nat.zero_add, Nat.mod_eq_of_lt hw]
    -- so the second one lies above all bits
    have hcover := (hp.covers (widthOr1 m.width)).1
      ⟨⟨m'.name, widthOr1 m'.width, widthOr1 m.width⟩, by rw [← hf, hfields]; simp, le_refl _, by
        simp only; omega⟩
    omega

theorem agree_of_one_member {members : List StructMember} (h : members.length ≤ 1) :
    structFieldInfos 0 members =
      msbFields (Walker.structWidth members) 0 (structFieldInfos 0 members) := by
  match members, h with
  | [], _ => rfl
  | [m], _ =>
    have hw := widthOr1_lt m.width
    have htotal : Walker.structWidth [m] = widthOr1 m.width := by
      rw [structWidth_eq, List.map_singleton, List.sum_singleton, Nat.mod_eq_of_lt hw]
    have hoff : sub64 (sub64 (widthOr1 m.width) 0) (widthOr1 m.width) = 0 := by
      unfold sub64
      omega
    simp [structFieldInfos, msbFields, htotal, hoff]

/-- The symbols are packed where the widths add up within 64 bits. -/
theorem packed_repack {name : Ident} {members : List StructMember}
    (h : (members.map fun m => widthOr1 m.width).sum < 2 ^ 64) :
    Packed (repack (lsbSymbol name members)).fields (repack (lsbSymbol name members)).totalWidth := by
  have htotal : Walker.structWidth members = (members.map fun m => widthOr1 m.width).sum := by
    rw [structWidth_eq, Nat.mod_eq_of_lt h]
  rw [fields_repack, totalWidth_repack]
  refine packed_msbFields (c := 0) (fun f hf => ?_) ?_ ?_
  · have hmem : f.width ∈ (structFieldInfos 0 members).map FieldInfo.width :=
      List.mem_map.2 ⟨f, hf, rfl⟩
    rw [map_width_structFieldInfos] at hmem
    obtain ⟨m, -, hm⟩ := List.mem_map.1 hmem
    rw [← hm]
    exact widthOr1_pos _
  · show Walker.structWidth members = 0 + ((structFieldInfos 0 members).map FieldInfo.width).sum
    rw [map_width_structFieldInfos, htotal, Nat.zero_add]
  · show Walker.structWidth members < 2 ^ 64
    omega

/-- **The two layouts agree exactly for structs of at most one member.** -/
theorem oneLayout_iff (cu : CompilationUnit) :
    OneLayout cu ↔ ∀ name members, DeclaresStruct cu name members → members.length ≤ 1 := by
  constructor
  · intro h name members hdecl
    obtain ⟨st, hst, -, hfields, hp, htype⟩ := h name members hdecl
    obtain ⟨name', members', -, rfl⟩ := (mem_structTables_iff cu st).1 hst
    have hlen := congrArg List.length hfields
    rw [fields_repack, map_msbFields] at hlen
    simp only [lsbSymbol, map_structFieldInfos, List.length_map] at hlen
    rw [← hlen]
    rw [fields_repack, totalWidth_repack] at hp
    rw [fields_repack, type_repack] at htype
    exact one_member_of_agree rfl hp htype
  · intro h name members hdecl
    have hone := h name members hdecl
    refine ⟨_, (mem_structTables_iff cu _).2 ⟨name, members, hdecl, rfl⟩, by simp [lsbSymbol], ?_,
      packed_repack ?_, ?_⟩
    · rw [fields_repack, map_msbFields]
      exact map_structFieldInfos 0 members
    · match members, hone with
      | [], _ => simp
      | [m], _ => simpa using widthOr1_lt m.width
    · rw [type_repack, fields_repack]
      exact agree_of_one_member hone

/-- `struct s { hi[4]; lo[8]; }` -/
def pairStruct : CompilationUnit :=
  [.struct 0 "s".toList [⟨"hi".toList, some (.literal .decimal "4".toList)⟩,
    ⟨"lo".toList, some (.literal .decimal "8".toList)⟩]]

/-- The symbol has `hi` at bit 8, the type at bit 0. -/
theorem not_oneLayout_pairStruct : ¬ OneLayout pairStruct := by
  intro h
  have hone : DeclaresStruct pairStruct "s".toList
      [⟨"hi".toList, some (.literal .decimal "4".toList)⟩,
        ⟨"lo".toList, some (.literal .decimal "8".toList)⟩] := ⟨[], [], 0, rfl, rfl⟩
  obtain ⟨st, hst, -, -, -, htype⟩ := h _ _ hone
  have hall : ((structTables pairStruct).symbols.all fun st =>
      st.type.fields.map FieldInfo.offset = [0, 4] ∧ st.fields.map FieldInfo.offset = [8, 0]) = true := by
    decide +kernel
  have hoff := of_decide_eq_true (List.all_eq_true.1 hall st hst)
  rw [htype] at hoff
  exact absurd (hoff.1.symm.trans hoff.2) (by decide)

end Sema

end Nslc
