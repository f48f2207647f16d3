import MethodCompiler.Proofs.JsonDecoding

/-!
# Units read back

Every unit without floating-point literals is read back from its text, down to each statement, literal
and position, unless its document nests too deeply for the reader.
-/

namespace MethodCompiler

/-! ### Floating-point literals -/

def Literal.isFloat : Literal → Bool
  | float _ => true
  | _ => false

def CaseLabel.isFloat : CaseLabel → Bool
  | case value => value.isFloat
  | default => false

/-- The expression itself is a floating-point literal. -/
def Expr.isFloat (e : Expr) : Bool := e.literal?.any Literal.isFloat

/-- Some literal of an expression is a floating-point number. -/
def Expr.hasFloat (e : Expr) : Bool := e.any Expr.isFloat

mutual

/-- Some literal of a statement is a floating-point number. -/
def Stmt.hasFloat : Stmt → Bool
  | .block _ body => body.hasFloat
  | .declare _ _ _ init _ => init.any Expr.hasFloat
  | .eval _ e => e.hasFloat
  | .ifElse _ cond thenBranch none => cond.hasFloat || thenBranch.hasFloat
  | .ifElse _ cond thenBranch (some elseBranch) =>
    cond.hasFloat || thenBranch.hasFloat || elseBranch.hasFloat
  | .whileLoop _ cond body | .doWhile _ body cond | .foreach _ _ _ cond body =>
    cond.hasFloat || body.hasFloat
  | .forLoop _ init cond step body =>
    Stmt.anyHasFloat init || cond.any Expr.hasFloat || step.any Expr.hasFloat || body.hasFloat
  | .switch _ subject sections => subject.hasFloat || SwitchSection.anyHasFloat sections
  | .ret _ value | .throw _ value => value.any Expr.hasFloat
  | .tryCatch _ body catches none => body.hasFloat || CatchClause.anyHasFloat catches
  | .tryCatch _ body catches (some cleanup) =>
    body.hasFloat || CatchClause.anyHasFloat catches || cleanup.hasFloat
  | .breakOut _ | .continueLoop _ | .empty _ | .unsupported _ _ => false

def Stmt.anyHasFloat : List Stmt → Bool
  | [] => false
  | s :: rest => s.hasFloat || Stmt.anyHasFloat rest

def Body.hasFloat : Body → Bool
  | .mk stmts _ => Stmt.anyHasFloat stmts

def SwitchSection.anyHasFloat : List SwitchSection → Bool
  | [] => false
  | .mk labels body :: rest =>
    labels.any CaseLabel.isFloat || Stmt.anyHasFloat body || SwitchSection.anyHasFloat rest

def CatchClause.anyHasFloat : List CatchClause → Bool
  | [] => false
  | .mk _ _ body :: rest => body.hasFloat || CatchClause.anyHasFloat rest

end

/-- Some literal of a unit is a floating-point number. -/
def SourceUnit.hasFloat (u : SourceUnit) : Bool := u.methods.any (·.body.hasFloat)

namespace Decoder

variable {n levels : Nat}

/-! ### Types and literals -/

private theorem reads_ty (t : Ty) : ∀ levels, Reads (ty levels) levels t.toJson t
  | 0 => nofun
  | levels + 1 => by
    cases t with
    | named name => exact (reads_string name).tagged_succ (fun _ ↦ rfl) rfl
    | array elem => exact (reads_ty elem levels).tagged_succ (fun _ ↦ rfl) rfl
    | table key value =>
      exact ((reads_ty key levels).pair (reads_ty value levels)).tagged_succ (fun _ ↦ rfl) rfl
    | _ => exact reads_name rfl

private theorem refusesNull_ty : ∀ levels, RefusesNull (ty levels)
  | 0 => fun _ ↦ rfl
  | _ + 1 => refusesNull_variant _

private theorem reads_anyTy (t : Ty) (hle : n ≤ maxDepth + 1) : Reads anyTy n t.toJson t :=
  (reads_ty t _).mono hle

private theorem reads_span (s : Span) : Reads span n s.toJson s :=
  FieldsRead.record (.required (reads_uint16 _) (.required (reads_uint32 _)
    (.required (reads_uint32 _) (.pure _)))) rfl (by decide)

private theorem reads_literal (l : Literal) (h : l.isFloat = false) : Reads literal n l.toJson l := by
  cases l with
  | bool b => exact (reads_bool b).tagged (fun _ ↦ rfl) rfl
  | char c => exact (reads_char c).tagged (fun _ ↦ rfl) rfl
  | int i => exact (reads_int64 i).tagged (fun _ ↦ rfl) rfl
  | uint i => exact (reads_uint64 i).tagged (fun _ ↦ rfl) rfl
  | float x => cases h
  | string s => exact (reads_string s).tagged (fun _ ↦ rfl) rfl
  | null => exact reads_name rfl

private theorem reads_unaryOp (op : UnaryOp) : Reads unaryOp n op.toJson op := by
  cases op <;> exact reads_name rfl

private theorem reads_binaryOp (op : BinaryOp) : Reads binaryOp n op.toJson op := by
  cases op <;> exact reads_name rfl

private theorem reads_logicalOp (op : LogicalOp) : Reads logicalOp n op.toJson op := by
  cases op <;> exact reads_name rfl

private theorem reads_ctorRef (c : CtorRef) : Reads ctorRef n c.toJson c :=
  FieldsRead.record (.required (reads_uint32 _) (.defaulted (reads_bool _) (.pure _))) rfl (by decide)

/-! ### Expressions -/

private theorem reads_node (make : Node → Expr) {node : Node} {kind : Json}
    (h : Reads (exprKind (expr levels)) levels kind make) :
    Reads (expr (levels + 1)) (levels + 1) (Expr.nodeJson node kind) (make node) :=
  FieldsRead.record_succ (.required (reads_uint32 _) (.required h (.defaulted (reads_span _)
    (.pure _)))) rfl (by decide)

mutual

private theorem reads_expr (e : Expr) (h : e.hasFloat = false) (levels : Nat) (hle : levels ≤ maxDepth + 1) :
    Reads (expr levels) levels e.toJson e := by
  cases levels with
  | zero => nofun
  | succ levels =>
    have hle := Nat.le_of_succ_le hle
    cases e with
    | literal node value =>
      exact reads_node (.literal · value) ((reads_literal value h).tagged (fun _ ↦ rfl) rfl)
    | name node text =>
      exact reads_node (.name · text) ((reads_string text).tagged (fun _ ↦ rfl) rfl)
    | this node => exact reads_node .this (reads_name rfl)
    | unary node op operand =>
      have ho := reads_expr operand h levels hle
      exact reads_node (.unary · op operand) (FieldsRead.tagged (fun _ ↦ rfl) rfl (by decide)
        (.required (reads_unaryOp op) (.required ho (.pure _))))
    | binary node op lhs rhs =>
      obtain ⟨hl, hr⟩ := Bool.or_eq_false_iff.mp h
      have hl := reads_expr lhs hl levels hle
      have hr := reads_expr rhs hr levels hle
      exact reads_node (.binary · op lhs rhs) (FieldsRead.tagged (fun _ ↦ rfl) rfl (by decide)
        (.required (reads_binaryOp op) (.required hl (.required hr (.pure _)))))
    | logical node op lhs rhs =>
      obtain ⟨hl, hr⟩ := Bool.or_eq_false_iff.mp h
      have hl := reads_expr lhs hl levels hle
      have hr := reads_expr rhs hr levels hle
      exact reads_node (.logical · op lhs rhs) (FieldsRead.tagged (fun _ ↦ rfl) rfl (by decide)
        (.required (reads_logicalOp op) (.required hl (.required hr (.pure _)))))
    | assign node target op value =>
      obtain ⟨ht, hv⟩ := Bool.or_eq_false_iff.mp h
      have ht := reads_expr target ht levels hle
      have hv := reads_expr value hv levels hle
      have hop : Reads (nullable binaryOp) levels (.ofOption BinaryOp.toJson op) op :=
        reads_ofOption (refusesNull_variant _) fun op _ ↦ reads_binaryOp op
      exact reads_node (.assign · target op value) (FieldsRead.tagged (fun _ ↦ rfl) rfl (by decide)
        (.required ht (.optional hop (.required hv (.pure _)))))
    | incDec node target increment first =>
      have ht := reads_expr target h levels hle
      exact reads_node (.incDec · target increment first) (FieldsRead.tagged (fun _ ↦ rfl) rfl
        (by decide) (.required ht (.required (reads_bool _) (.required (reads_bool _) (.pure _)))))
    | conditional node cond thenExpr elseExpr =>
      obtain ⟨h, he⟩ := Bool.or_eq_false_iff.mp h
      obtain ⟨hc, ht⟩ := Bool.or_eq_false_iff.mp h
      have hc := reads_expr cond hc levels hle
      have ht := reads_expr thenExpr ht levels hle
      have he := reads_expr elseExpr he levels hle
      exact reads_node (.conditional · cond thenExpr elseExpr) (FieldsRead.tagged (fun _ ↦ rfl) rfl
        (by decide) (.required hc (.required ht (.required he (.pure _)))))
    | member node object field =>
      have ho := reads_expr object h levels hle
      exact reads_node (.member · object field) (FieldsRead.tagged (fun _ ↦ rfl) rfl (by decide)
        (.required ho (.required (reads_string field) (.pure _))))
    | index node object key =>
      obtain ⟨ho, hk⟩ := Bool.or_eq_false_iff.mp h
      have ho := reads_expr object ho levels hle
      have hk := reads_expr key hk levels hle
      exact reads_node (.index · object key) (FieldsRead.tagged (fun _ ↦ rfl) rfl (by decide)
        (.required ho (.required hk (.pure _))))
    | call node callee args =>
      obtain ⟨hc, ha⟩ := Bool.or_eq_false_iff.mp h
      have hc := reads_expr callee hc levels hle
      have ha := reads_exprs args ha levels hle
      exact reads_node (.call · callee args) (FieldsRead.tagged (fun _ ↦ rfl) rfl (by decide)
        (.required hc (.required ha.list (.pure _))))
    | new node ty ctor args =>
      have ha := reads_exprs args h levels hle
      have hctor : Reads (nullable ctorRef) levels (.ofOption CtorRef.toJson ctor) ctor :=
        reads_ofOption (refusesNull_record _ _) fun c _ ↦ reads_ctorRef c
      exact reads_node (.new · ty ctor args) (FieldsRead.tagged (fun _ ↦ rfl) rfl (by decide)
        (.required (reads_anyTy ty hle) (.optional hctor (.required ha.list (.pure _)))))
    | newArray node elem len =>
      have hl := reads_expr len h levels hle
      exact reads_node (.newArray · elem len) (FieldsRead.tagged (fun _ ↦ rfl) rfl (by decide)
        (.required (reads_anyTy elem hle) (.required hl (.pure _))))
    | arrayLiteral node elem items =>
      have hi := reads_exprs items h levels hle
      exact reads_node (.arrayLiteral · elem items) (FieldsRead.tagged (fun _ ↦ rfl) rfl (by decide)
        (.required (reads_anyTy elem hle) (.required hi.list (.pure _))))
    | tableLiteral node key value entries =>
      have he := reads_entries entries h levels hle
      exact reads_node (.tableLiteral · key value entries) (FieldsRead.tagged (fun _ ↦ rfl) rfl
        (by decide) (.required (reads_anyTy key hle) (.required (reads_anyTy value hle)
          (.required he.list (.pure _)))))
    | cast node ty e =>
      have he := reads_expr e h levels hle
      exact reads_node (.cast · ty e) (FieldsRead.tagged (fun _ ↦ rfl) rfl (by decide)
        (.required (reads_anyTy ty hle) (.required he (.pure _))))
    | is node e ty =>
      have he := reads_expr e h levels hle
      exact reads_node (.is · e ty) (FieldsRead.tagged (fun _ ↦ rfl) rfl (by decide)
        (.required he (.required (reads_anyTy ty hle) (.pure _))))
    | as node e ty =>
      have he := reads_expr e h levels hle
      exact reads_node (.as · e ty) (FieldsRead.tagged (fun _ ↦ rfl) rfl (by decide)
        (.required he (.required (reads_anyTy ty hle) (.pure _))))
    | typeOf node ty => exact reads_node (.typeOf · ty) ((reads_anyTy ty hle).tagged (fun _ ↦ rfl) rfl)
    | unsupported node construct =>
      exact reads_node (.unsupported · construct) ((reads_string construct).tagged (fun _ ↦ rfl) rfl)

private theorem reads_exprs (es : List Expr) (h : Expr.anyOf Expr.isFloat es = false) (levels : Nat)
    (hle : levels ≤ maxDepth + 1) : ItemsRead (expr levels) levels (Expr.listJson es) es := by
  cases es with
  | nil => exact .nil
  | cons e rest =>
    obtain ⟨he, hrest⟩ := Bool.or_eq_false_iff.mp h
    exact .cons (reads_expr e he levels hle) (reads_exprs rest hrest levels hle)

private theorem reads_entries (entries : List (Expr × Expr))
    (h : Expr.anyOfEntries Expr.isFloat entries = false) (levels : Nat) (hle : levels ≤ maxDepth + 1) :
    ItemsRead (pair (expr levels) (expr levels)) levels (Expr.entriesJson entries) entries := by
  cases entries with
  | nil => exact .nil
  | cons e rest =>
    obtain ⟨k, v⟩ := e
    obtain ⟨he, hrest⟩ := Bool.or_eq_false_iff.mp h
    obtain ⟨hk, hv⟩ := Bool.or_eq_false_iff.mp he
    have hpair := (reads_expr k hk levels hle).pair (reads_expr v hv levels hle)
    exact .cons hpair (reads_entries rest hrest levels hle)

end

private theorem reads_anyExpr (e : Expr) (h : e.hasFloat = false) (hle : n ≤ maxDepth + 1) :
    Reads anyExpr n e.toJson e :=
  (reads_expr e h _ (Nat.le_refl _)).mono hle

private theorem reads_optionExpr (o : Option Expr) (h : o.any Expr.hasFloat = false)
    (hle : n ≤ maxDepth + 1) :
    Reads (nullable anyExpr) n (.ofOption Expr.toJson o) o := by
  cases o with
  | none => exact reads_null
  | some e => exact (reads_anyExpr e h hle).nullable (refusesNull_record _ _)

/-! ### Statements -/

private theorem reads_caseLabel (l : CaseLabel) (h : l.isFloat = false) : Reads caseLabel n l.toJson l := by
  cases l with
  | case value => exact (reads_literal value h).tagged (fun _ ↦ rfl) rfl
  | default => exact reads_name rfl

private theorem reads_stmtNode (make : Span → Stmt) {s : Span} {kind : Json}
    (h : Reads (stmtKind (stmt levels)) levels kind make) :
    Reads (stmt (levels + 1)) (levels + 1) (Stmt.nodeJson s kind) (make s) :=
  FieldsRead.record_succ (.required h (.defaulted (reads_span s) (.pure _))) rfl (by decide)

private theorem refusesNull_stmt : ∀ levels, RefusesNull (stmt levels)
  | 0 => fun _ ↦ rfl
  | _ + 1 => refusesNull_record _ _

mutual

private theorem reads_stmt (s : Stmt) (h : s.hasFloat = false) (levels : Nat) (hle : levels ≤ maxDepth + 1) :
    Reads (stmt levels) levels s.toJson s := by
  cases levels with
  | zero => nofun
  | succ levels =>
    have hle := Nat.le_of_succ_le hle
    cases s with
    | block s b =>
      exact reads_stmtNode (.block · b) ((reads_body b h levels hle).tagged (fun _ ↦ rfl) rfl)
    | declare s name ty init isConst =>
      exact reads_stmtNode (.declare · name ty init isConst) (FieldsRead.tagged (fun _ ↦ rfl) rfl
        (by decide) (.required (reads_string name) (.required (reads_anyTy ty hle)
          (.optional (reads_optionExpr init h hle) (.defaulted (reads_bool isConst) (.pure _))))))
    | eval s e =>
      exact reads_stmtNode (.eval · e) ((reads_anyExpr e h hle).tagged (fun _ ↦ rfl) rfl)
    | ifElse s cond thenBranch elseBranch =>
      cases elseBranch with
      | none =>
        obtain ⟨hc, ht⟩ := Bool.or_eq_false_iff.mp h
        have ht := reads_stmt thenBranch ht levels hle
        exact reads_stmtNode (.ifElse · cond thenBranch none) (FieldsRead.tagged (fun _ ↦ rfl) rfl
          (by decide) (.required (reads_anyExpr cond hc hle) (.required ht
            (.optional reads_null (.pure _)))))
      | some elseBranch =>
        obtain ⟨h, he⟩ := Bool.or_eq_false_iff.mp h
        obtain ⟨hc, ht⟩ := Bool.or_eq_false_iff.mp h
        have ht := reads_stmt thenBranch ht levels hle
        have he := (reads_stmt elseBranch he levels hle).nullable (refusesNull_stmt levels)
        exact reads_stmtNode (.ifElse · cond thenBranch (some elseBranch))
          (FieldsRead.tagged (fun _ ↦ rfl) rfl (by decide) (.required (reads_anyExpr cond hc hle)
            (.required ht (.optional he (.pure _)))))
    | whileLoop s cond b =>
      obtain ⟨hc, hb⟩ := Bool.or_eq_false_iff.mp h
      have hb := reads_stmt b hb levels hle
      exact reads_stmtNode (.whileLoop · cond b) (FieldsRead.tagged (fun _ ↦ rfl) rfl (by decide)
        (.required (reads_anyExpr cond hc hle) (.required hb (.pure _))))
    | doWhile s b cond =>
      obtain ⟨hc, hb⟩ := Bool.or_eq_false_iff.mp h
      have hb := reads_stmt b hb levels hle
      exact reads_stmtNode (.doWhile · b cond) (FieldsRead.tagged (fun _ ↦ rfl) rfl (by decide)
        (.required hb (.required (reads_anyExpr cond hc hle) (.pure _))))
    | forLoop s init cond step b =>
      obtain ⟨h, hb⟩ := Bool.or_eq_false_iff.mp h
      obtain ⟨h, hstep⟩ := Bool.or_eq_false_iff.mp h
      obtain ⟨hi, hc⟩ := Bool.or_eq_false_iff.mp h
      have hi := reads_stmts init hi levels hle
      have hb := reads_stmt b hb levels hle
      have hstep : ItemsRead anyExpr levels (step.map Expr.toJson) step :=
        itemsRead_map fun e he ↦
          reads_anyExpr e (Bool.eq_false_iff.mpr (List.any_eq_false.mp hstep e he)) hle
      exact reads_stmtNode (.forLoop · init cond step b) (FieldsRead.tagged (fun _ ↦ rfl) rfl
        (by decide) (.required hi.list (.optional (reads_optionExpr cond hc hle)
          (.required hstep.list (.required hb (.pure _))))))
    | foreach s var varTy collection b =>
      obtain ⟨hc, hb⟩ := Bool.or_eq_false_iff.mp h
      have hb := reads_stmt b hb levels hle
      exact reads_stmtNode (.foreach · var varTy collection b) (FieldsRead.tagged (fun _ ↦ rfl) rfl
        (by decide) (.required (reads_string var) (.required (reads_anyTy varTy hle)
          (.required (reads_anyExpr collection hc hle) (.required hb (.pure _))))))
    | switch s subject sections =>
      obtain ⟨he, hs⟩ := Bool.or_eq_false_iff.mp h
      have hs := reads_sections sections hs levels hle
      exact reads_stmtNode (.switch · subject sections) (FieldsRead.tagged (fun _ ↦ rfl) rfl
        (by decide) (.required (reads_anyExpr subject he hle) (.required hs.list (.pure _))))
    | breakOut s => exact reads_stmtNode .breakOut (reads_name rfl)
    | continueLoop s => exact reads_stmtNode .continueLoop (reads_name rfl)
    | ret s value =>
      exact reads_stmtNode (.ret · value) ((reads_optionExpr value h hle).tagged (fun _ ↦ rfl) rfl)
    | throw s value =>
      exact reads_stmtNode (.throw · value) ((reads_optionExpr value h hle).tagged (fun _ ↦ rfl) rfl)
    | tryCatch s b catches cleanup =>
      cases cleanup with
      | none =>
        obtain ⟨hb, hc⟩ := Bool.or_eq_false_iff.mp h
        have hb := reads_body b hb levels hle
        have hc := reads_clauses catches hc levels hle
        exact reads_stmtNode (.tryCatch · b catches none) (FieldsRead.tagged (fun _ ↦ rfl) rfl
          (by decide) (.required hb (.required hc.list (.optional reads_null (.pure _)))))
      | some cleanup =>
        obtain ⟨h, hf⟩ := Bool.or_eq_false_iff.mp h
        obtain ⟨hb, hc⟩ := Bool.or_eq_false_iff.mp h
        have hb := reads_body b hb levels hle
        have hc := reads_clauses catches hc levels hle
        have hf := (reads_body cleanup hf levels hle).nullable (refusesNull_record _ _)
        exact reads_stmtNode (.tryCatch · b catches (some cleanup)) (FieldsRead.tagged
          (fun _ ↦ rfl) rfl (by decide) (.required hb (.required hc.list (.optional hf (.pure _)))))
    | empty s => exact reads_stmtNode .empty (reads_name rfl)
    | unsupported s construct =>
      exact reads_stmtNode (.unsupported · construct)
        ((reads_string construct).tagged (fun _ ↦ rfl) rfl)

private theorem reads_stmts (ss : List Stmt) (h : Stmt.anyHasFloat ss = false) (levels : Nat)
    (hle : levels ≤ maxDepth + 1) : ItemsRead (stmt levels) levels (Stmt.listJson ss) ss := by
  cases ss with
  | nil => exact .nil
  | cons s rest =>
    obtain ⟨hs, hrest⟩ := Bool.or_eq_false_iff.mp h
    exact .cons (reads_stmt s hs levels hle) (reads_stmts rest hrest levels hle)

private theorem reads_body (b : Body) (h : b.hasFloat = false) (levels : Nat) (hle : levels ≤ maxDepth + 1) :
    Reads (body (stmt levels)) levels (Stmt.bodyJson b) b := by
  cases b with
  | mk stmts s =>
    exact FieldsRead.record (.required (reads_stmts stmts h levels hle).list
      (.defaulted (reads_span s) (.pure _))) rfl (by decide)

private theorem reads_sections (sections : List SwitchSection)
    (h : SwitchSection.anyHasFloat sections = false)
    (levels : Nat) (hle : levels ≤ maxDepth + 1) :
    ItemsRead (switchSection (stmt levels)) levels (Stmt.sectionsJson sections) sections := by
  cases sections with
  | nil => exact .nil
  | cons first rest =>
    obtain ⟨labels, stmts⟩ := first
    obtain ⟨h, hrest⟩ := Bool.or_eq_false_iff.mp h
    obtain ⟨hl, hs⟩ := Bool.or_eq_false_iff.mp h
    have hs := reads_stmts stmts hs levels hle
    have hl : ItemsRead caseLabel levels (labels.map CaseLabel.toJson) labels :=
      itemsRead_map fun l hmem ↦
        reads_caseLabel l (Bool.eq_false_iff.mpr (List.any_eq_false.mp hl l hmem))
    refine .cons ?_ (reads_sections rest hrest levels hle)
    exact FieldsRead.record (.required hl.list (.required hs.list (.pure _))) rfl (by decide)

private theorem reads_clauses (clauses : List CatchClause) (h : CatchClause.anyHasFloat clauses = false)
    (levels : Nat) (hle : levels ≤ maxDepth + 1) :
    ItemsRead (catchClause (stmt levels)) levels (Stmt.clausesJson clauses) clauses := by
  cases clauses with
  | nil => exact .nil
  | cons first rest =>
    obtain ⟨ty, var, b⟩ := first
    obtain ⟨hb, hrest⟩ := Bool.or_eq_false_iff.mp h
    have hb := reads_body b hb levels hle
    have hty : Reads (nullable anyTy) levels (.ofOption Ty.toJson ty) ty :=
      reads_ofOption (refusesNull_ty _) fun t _ ↦ reads_anyTy t hle
    have hvar : Reads (nullable string) levels (.ofOption Json.ofString var) var :=
      reads_ofOption (fun _ ↦ rfl) fun s _ ↦ reads_string s
    refine .cons ?_ (reads_clauses rest hrest levels hle)
    exact FieldsRead.record (.optional hty (.optional hvar (.required hb (.pure _)))) rfl (by decide)

end

/-! ### Methods, symbols and units -/

private theorem reads_param (p : Param) (hle : n ≤ maxDepth + 1) : Reads param n p.toJson p :=
  FieldsRead.record (.required (reads_string _) (.required (reads_anyTy _ hle)
    (.defaulted (reads_bool _) (.pure _)))) rfl (by decide)

private theorem reads_method (m : Method) (h : m.body.hasFloat = false) :
    Reads method (maxDepth + 1) m.toJson m := by
  have hle := Nat.le_refl (maxDepth + 1)
  have hparams := itemsRead_map fun p (_ : p ∈ m.params) ↦ reads_param p hle
  have hbody : Reads (body anyStmt) (maxDepth + 1) (Stmt.bodyJson m.body) m.body :=
    reads_body m.body h _ hle
  exact FieldsRead.record (.required (reads_uint32 _) (.required (reads_string _)
    (.defaulted (reads_string _) (.defaulted (reads_bool _) (.required hparams.list
      (.required (reads_anyTy _ hle) (.required hbody (.defaulted (reads_span _) (.pure _)))))))))
    rfl (by decide)

private theorem reads_symbolKind (k : SymbolKind) : Reads symbolKind n k.toJson k := by
  cases k <;> exact reads_name rfl

private theorem reads_symbol (s : Symbol) (hle : n ≤ maxDepth + 1) : Reads symbol n s.toJson s :=
  FieldsRead.record (.required (reads_symbolKind _) (.required (reads_string _)
    (.required (reads_anyTy _ hle) (.defaulted (reads_bool _) (.defaulted (reads_uint32 _)
      (.defaulted (reads_bool _) (.defaulted (reads_bool _) (.pure _)))))))) rfl (by decide)

private theorem reads_symbolTable (t : SymbolTable) (hle : n ≤ maxDepth + 1) :
    Reads symbolTable n t.toJson t :=
  FieldsRead.record (.defaulted (reads_sortedMap _ fun _ _ ↦ reads_symbol _ hle)
    (.defaulted (reads_sortedMap _ fun _ _ ↦ reads_anyTy _ hle) (.pure _))) rfl (by decide)

private theorem reads_sourceUnit (u : SourceUnit) (h : u.hasFloat = false) :
    Reads sourceUnit (maxDepth + 1) u.toJson u := by
  have hmethods : ItemsRead method (maxDepth + 1) (u.methods.map Method.toJson) u.methods :=
    itemsRead_map fun m hm ↦ reads_method m (Bool.eq_false_iff.mpr (List.any_eq_false.mp h m hm))
  exact FieldsRead.record (.defaulted (reads_string _)
    (.defaulted (reads_ofOption (fun _ ↦ rfl) fun _ _ ↦ reads_string _)
      (.required hmethods.list (.defaulted (reads_symbolTable _ (Nat.le_refl _)) (.pure _)))))
    rfl (by decide)

end Decoder

namespace SourceUnit

/-- A unit with a file name and without floating-point literals is read back from its text, whatever
path is given, if at most 127 objects and arrays of its document are open at once. -/
theorem reads_back (u : SourceUnit) (path : String) (hfile : u.file ≠ "") (hfloat : u.hasFloat = false)
    (hdepth : u.toJson.depth ≤ Decoder.maxDepth) : parse? u.render path = some u := by
  obtain ⟨hvalid, hread⟩ := Decoder.reads_sourceUnit u hfloat _ (Nat.lt_succ_self _) hdepth
  rw [parse?, render, Json.parse?_render _ hvalid]
  simp only [bind, Option.bind, ofJson?, hread]
  simp [hfile]

/-- A unit with a control character in its source, a protected statement and a switch. -/
private def meterUnit : SourceUnit where
  file := "meter"
  source := some "rate\x01\t\"é\""
  methods := [{
    index := 3, name := "sample", owner := "Meter", params := [⟨"level", .table .string .u64, true⟩]
    returnTy := .void
    body := .mk [
      .tryCatch ⟨0, 4, 90⟩
        (.mk [.switch Span.none (.name ⟨1, Span.none⟩ "level") [
          .mk [.case (.int (-9223372036854775808)), .default] [.breakOut Span.none]]] Span.none)
        [.mk (some (.named "Fault")) none (.mk [.throw Span.none none] Span.none)]
        (some (.mk [.ret Span.none (some (.literal ⟨2, Span.none⟩ (.char '\x7f')))] Span.none))]
      Span.none }]
  symbols := { types := SortedMap.empty.insert 4294967295 (.array .i8) }

/-- A unit with a control character in its source, a protected statement and a switch is read back. -/
theorem meterUnit_reads_back : meterUnit.file ≠ "" ∧ meterUnit.hasFloat = false ∧
    meterUnit.toJson.depth ≤ Decoder.maxDepth ∧
      parse? meterUnit.render "input.json" = some meterUnit :=
  ⟨by decide, by decide, by decide,
    reads_back meterUnit "input.json" (by decide) (by decide) (by decide)⟩

end SourceUnit

end MethodCompiler
