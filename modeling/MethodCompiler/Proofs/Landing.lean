import Mathlib.Algebra.Group.Nat.Defs
import MethodCompiler.Code.Placement
import MethodCompiler.Proofs.MergedRanges

/-!
# Where statements land

Placing drops labels and dead statements, so a statement lands at the number of statements that are
kept before it. Statements that control can come to are all kept, and a label stands for the landing of
its position.
-/

namespace MethodCompiler

variable {strip : Bool} {code : List Statement} {i k : Nat} {s : Statement} {l : String}

/-- No control comes to the end of code, where `dead` tells that none comes to its start. -/
def deadAfter (dead : Bool) : List Statement → Bool
  | [] => dead
  | s :: rest => deadAfter (s.label?.isNone && (dead || s.op.isUnconditionalExit)) rest

/-- Whether control comes past two parts is for the second to say, from how control leaves the first. -/
theorem deadAfter_append (dead : Bool) (a b : List Statement) :
    deadAfter dead (a ++ b) = deadAfter (deadAfter dead a) b := by
  induction a generalizing dead with
  | nil => rfl
  | cons s rest ih => exact ih _

/-- Control may come to a position: a label stands there, or no exit ends the code before it. -/
def Alive (code : List Statement) (i : Nat) : Prop :=
  (labelAt? code i).isSome ∨ deadAfter false (code.take i) = false

namespace Placement

/-- The first statements are placed without regard to the others, which are placed after them. -/
private theorem ofCode_append (strip : Bool) (next : Nat) (dead : Bool) (a b : List Statement) :
    ofCode strip next dead (a ++ b) =
      { statements := (ofCode strip next dead a).statements ++
          (ofCode strip (next + (ofCode strip next dead a).statements.length)
            (deadAfter dead a) b).statements
        positions := (ofCode strip next dead a).positions ++
          (ofCode strip (next + (ofCode strip next dead a).statements.length)
            (deadAfter dead a) b).positions } := by
  induction a generalizing next dead with
  | nil => rfl
  | cons s rest ih =>
    rw [List.cons_append, ofCode, ofCode, deadAfter]
    cases hl : s.label? with
    | some name =>
      simp only [ih, Option.isNone_some, Bool.false_and, List.cons_append]
    | none =>
      simp only [Option.isNone_none, Bool.true_and]
      split
      · next hskip =>
        have hdead : dead = true := by simpa using (Bool.and_eq_true_iff.mp hskip).1
        rw [ih, hdead, Bool.true_or]
      · simp only [ih, List.cons_append, List.length_cons, Nat.add_assoc, Nat.add_comm 1]

/-- Which statements are kept does not depend on what stands before them. -/
theorem statements_ofCode (next : Nat) (dead : Bool) (code : List Statement) :
    (ofCode strip next dead code).statements = (ofCode strip 0 dead code).statements := by
  have hany (m n : Nat) :
      (ofCode strip m dead code).statements = (ofCode strip n dead code).statements := by
    induction code generalizing dead m n with
    | nil => rfl
    | cons s rest ih =>
      rw [ofCode, ofCode]
      split
      · exact ih false m n
      · split
        · exact ih dead m n
        · exact congrArg (s :: ·) (ih _ (m + 1) (n + 1))
  exact hany next 0

/-- All labels of the code are placed, in order. -/
theorem map_fst_positions (strip : Bool) (next : Nat) (dead : Bool) (code : List Statement) :
    (ofCode strip next dead code).positions.map (·.1) = labelsOf code := by
  induction code generalizing next dead with
  | nil => rfl
  | cons s rest ih =>
    rw [ofCode, labelsOf, List.filterMap_cons]
    cases s.label? with
    | some name => exact congrArg (name :: ·) (ih next false)
    | none =>
      simp only
      split
      · exact ih next dead
      · exact ih (next + 1) _

end Placement

/-- The number of statements that are kept of the first `i`. -/
def landing (strip : Bool) (code : List Statement) (i : Nat) : Nat :=
  (Placement.ofCode strip 0 false (code.take i)).statements.length

/-- Control comes to the first statement. -/
theorem alive_zero (code : List Statement) : Alive code 0 := .inr rfl

/-- Positions past the code land behind all kept statements. -/
theorem landing_eq_length (strip : Bool) (code : List Statement) (h : code.length ≤ i) :
    landing strip code i = (Placement.ofCode strip 0 false code).statements.length := by
  rw [landing, List.take_of_length_le h]

private theorem take_succ_of_getElem? (h : code[i]? = some s) :
    code.take (i + 1) = code.take i ++ [s] := by
  rw [List.take_add_one, h]
  rfl

/-- Code, split at one of its statements. -/
theorem eq_take_append (h : code[i]? = some s) :
    code = code.take i ++ ([s] ++ code.drop (i + 1)) := by
  rw [← List.append_assoc, ← take_succ_of_getElem? h, List.take_append_drop]

/-- The label at a position is that of its statement. -/
theorem labelAt?_eq (h : code[i]? = some s) : labelAt? code i = s.label? := by
  rw [labelAt?, h]
  rfl

private theorem landing_succ_le (strip : Bool) (code : List Statement) (i : Nat) :
    landing strip code (i + 1) ≤ landing strip code i + 1 := by
  cases h : code[i]? with
  | none =>
    have hle := List.getElem?_eq_none_iff.mp h
    rw [landing_eq_length strip code hle, landing_eq_length strip code (Nat.le_succ_of_le hle)]
    exact Nat.le_succ _
  | some s =>
    rw [landing, take_succ_of_getElem? h, Placement.ofCode_append, List.length_append]
    refine Nat.add_le_add_left ?_ _
    rw [Placement.ofCode]
    split
    · exact Nat.zero_le _
    · split
      · exact Nat.zero_le _
      · exact Nat.le_refl _

/-- No statement lands behind its own position. -/
theorem landing_le (strip : Bool) (code : List Statement) (i : Nat) :
    landing strip code i ≤ i := by
  induction i with
  | zero => exact Nat.le_refl _
  | succ i ih => exact Nat.le_trans (landing_succ_le strip code i) (Nat.succ_le_succ ih)

/-- A label takes no place. -/
theorem landing_label (h : labelAt? code i = some l) :
    landing strip code (i + 1) = landing strip code i := by
  obtain ⟨s, hs, hl⟩ := Option.bind_eq_some_iff.mp h
  rw [landing, take_succ_of_getElem? hs, Placement.ofCode_append]
  simp [Placement.ofCode, hl, landing]

/-- Control may come past a label. -/
theorem alive_label (h : labelAt? code i = some l) : Alive code (i + 1) := by
  obtain ⟨s, hs, hl⟩ := Option.bind_eq_some_iff.mp h
  right
  rw [take_succ_of_getElem? hs, deadAfter_append]
  simp [deadAfter, hl]

section Statement

variable (hs : code[i]? = some s) (hl : s.label? = none) (ha : Alive code i)

include hs hl ha

private theorem not_dead : deadAfter false (code.take i) = false := by
  rcases ha with ha | ha
  · rw [labelAt?_eq hs, hl] at ha
    cases ha
  · exact ha

/-- A statement that control may come to is kept, and the next one lands after it. -/
theorem getElem?_landing (strip : Bool) :
    (Placement.ofCode strip 0 false code).statements[landing strip code i]? = some s ∧
      landing strip code (i + 1) = landing strip code i + 1 := by
  have hdead := not_dead hs hl ha
  constructor
  · have hsplit : (Placement.ofCode strip 0 false code).statements =
        (Placement.ofCode strip 0 false (code.take i)).statements ++
          (Placement.ofCode strip 0 false (s :: code.drop (i + 1))).statements := by
      conv => lhs; rw [eq_take_append hs]
      rw [Placement.ofCode_append, hdead, Placement.statements_ofCode (0 + _)]
      rfl
    rw [hsplit, landing, List.getElem?_append_right (Nat.le_refl _), Nat.sub_self]
    simp [Placement.ofCode, hl]
  · rw [landing, take_succ_of_getElem? hs, Placement.ofCode_append, hdead]
    simp [Placement.ofCode, hl, landing]

/-- Control goes on to the next position, unless the statement is an exit. -/
theorem alive_succ (hexit : s.op.isUnconditionalExit = false) : Alive code (i + 1) := by
  right
  rw [take_succ_of_getElem? hs, deadAfter_append, not_dead hs hl ha]
  simp [deadAfter, hexit]

end Statement

/-- A label is resolved to the landing of its position. -/
private theorem Placement.resolve_ofCode (hd : (labelsOf code).Nodup) (l : String) :
    (ofCode strip 0 false code).resolve l =
      (labelPosition? code l).elim (.error (.unresolvedLabel l)) (.ok ∘ landing strip code) := by
  have hkeys := map_fst_positions strip 0 false code
  cases hp : labelPosition? code l with
  | none =>
    have hfind : (ofCode strip 0 false code).positions.reverse.find? (·.1 == l) = none := by
      rw [List.find?_eq_none]
      intro e he heq
      have hm : e.1 ∈ labelsOf code := by
        rw [← hkeys]
        exact List.mem_map_of_mem (List.mem_reverse.mp he)
      obtain ⟨s, hs, hl⟩ := List.mem_filterMap.mp hm
      have := List.findIdx?_eq_none_iff.mp hp s hs
      rw [hl, eq_of_beq heq] at this
      simp at this
    rw [resolve, hfind]
    rfl
  | some i =>
    obtain ⟨hi, hlabel, -⟩ := List.findIdx?_eq_some_iff_getElem.mp hp
    have hs : code[i]? = some code[i] := List.getElem?_eq_getElem hi
    have hmem : (l, landing strip code i) ∈ (ofCode strip 0 false code).positions := by
      have hsplit := eq_take_append hs
      rw [hsplit, ofCode_append, ← hsplit]
      refine List.mem_append_right _ ?_
      rw [List.cons_append, ofCode, eq_of_beq hlabel, Nat.zero_add]
      exact List.mem_cons_self
    have hd' : ((ofCode strip 0 false code).positions.reverse.map (·.1)).Nodup := by
      rw [List.map_reverse, hkeys]
      exact List.pairwise_reverse.mpr (hd.imp Ne.symm)
    rw [resolve, find?_of_nodup hd' (List.mem_reverse.mpr hmem)]
    rfl

/-! ### Landing inside -/

namespace Placement

private theorem statements_ne_nil (strip : Bool) (next : Nat) (h : Closed code) :
    (ofCode strip next false code).statements ≠ [] := by
  induction code with
  | nil => exact absurd h not_closed_nil
  | cons s rest ih =>
    rw [ofCode]
    split
    · next hl =>
      have hop := Statement.op_of_label? hl
      apply ih
      exact closed_of_append (a := [s]) h (not_closed_concat (a := []) (by rw [hop]; rfl))
    · rw [Bool.false_and, if_neg Bool.false_ne_true]
      exact List.cons_ne_nil _ _

/-- What is kept of closed code is closed. Only where all of it is dead, nothing may be left. -/
private theorem closed_or_nil (strip : Bool) (next : Nat) (dead : Bool) (h : Closed code)
    (hexit : ∀ s ∈ code, s.op.isUnconditionalExit = true → s.synthetic = false) :
    Closed (ofCode strip next dead code).statements ∨
      strip = true ∧ dead = true ∧ (ofCode strip next dead code).statements = [] := by
  induction code generalizing next dead with
  | nil => exact absurd h not_closed_nil
  | cons s rest ih =>
    obtain ⟨hs, hrest⟩ := List.forall_mem_cons.mp hexit
    rw [ofCode]
    split
    · next hl =>
      rcases closed_of_cons h with h | ⟨-, hop⟩
      · rcases ih next false h hrest with h | ⟨-, h, -⟩
        · exact .inl h
        · cases h
      · rw [Statement.op_of_label? hl] at hop
        cases hop
    · split
      · next hskip =>
        rcases closed_of_cons h with h | ⟨rfl, hop⟩
        · exact ih next dead h hrest
        · rw [hs hop, Bool.or_false, Bool.and_eq_true] at hskip
          exact .inr ⟨hskip.2, hskip.1, rfl⟩
      · next hskip =>
        refine .inl ?_
        rcases closed_of_cons h with h | ⟨rfl, hop⟩
        · rcases ih (next + 1) (dead || s.op.isUnconditionalExit) h hrest with h | ⟨rfl, hdead, hnil⟩
          · exact closed_cons h
          · dsimp only
            rw [hnil]
            apply closed_singleton
            simp only [Bool.true_or, Bool.and_true] at hskip
            simpa [hskip] using hdead
        · exact closed_singleton hop

/-- What is kept of closed code is closed. -/
theorem closed_ofCode (strip : Bool) (h : Closed code)
    (hexit : ∀ s ∈ code, s.op.isUnconditionalExit = true → s.synthetic = false) :
    Closed (ofCode strip 0 false code).statements := by
  rcases closed_or_nil strip 0 false h hexit with h | ⟨-, h, -⟩
  · exact h
  · cases h

/-- Kept statements are statements of the code. -/
theorem mem_of_mem_statements {next : Nat} {dead : Bool}
    (h : s ∈ (ofCode strip next dead code).statements) : s ∈ code := by
  induction code generalizing next dead with
  | nil => cases h
  | cons t rest ih =>
    rw [ofCode] at h
    split at h
    · exact List.mem_cons_of_mem _ (ih h)
    · split at h
      · exact List.mem_cons_of_mem _ (ih h)
      · rcases List.mem_cons.mp h with rfl | h
        · exact List.mem_cons_self
        · exact List.mem_cons_of_mem _ (ih h)

end Placement

/-- A label of closed code lands on a statement. -/
theorem landing_lt_length (strip : Bool) (h : Closed code) (hl : labelAt? code i = some l) :
    landing strip code i < (Placement.ofCode strip 0 false code).statements.length := by
  obtain ⟨s, hs, hname⟩ := Option.bind_eq_some_iff.mp hl
  have hop := Statement.op_of_label? hname
  have hrest : Closed (code.drop (i + 1)) := by
    rw [← List.take_append_drop (i + 1) code, take_succ_of_getElem? hs] at h
    exact closed_of_append h (not_closed_concat (by rw [hop]; rfl))
  conv => rhs; rw [eq_take_append hs, Placement.ofCode_append]
  rw [List.length_append, landing, List.singleton_append, Placement.ofCode, hname]
  exact Nat.lt_add_of_pos_right
    (List.length_pos_of_ne_nil (Placement.statements_ne_nil strip _ hrest))

/-! ### Labels as numbers -/

namespace Value

def label? : Value → Option String
  | label name => some name
  | _ => none

mutual

/-- The values that a jump table holds at any depth, in order; its keys do not count. -/
def leaves : Value → List Value
  | array _ items => itemLeaves items
  | table _ _ entries => entryLeaves entries
  | v => [v]

def itemLeaves : List Value → List Value
  | [] => []
  | v :: rest => v.leaves ++ itemLeaves rest

def entryLeaves : List (Value × Value) → List Value
  | [] => []
  | (_, v) :: rest => v.leaves ++ entryLeaves rest

end

variable {ε : Type} {f : String → Except ε Value}

mutual

/-- Where labels are replaced by scalars, each value that a table holds is replaced by one value. -/
theorem leaves_of_resolveLabels {v w : Value} (hf : ∀ l v, f l = .ok v → v.leaves = [v])
    (h : v.resolveLabels f = (none, w)) :
    List.Forall₂ (fun a b ↦ a.resolveLabels f = (none, b)) v.leaves w.leaves := by
  cases v with
  | label name =>
    have hw : w.leaves = [w] := by
      rw [resolveLabels] at h
      split at h
      · next v hv =>
        cases h
        exact hf name w hv
      · cases h
    rw [hw]
    exact .cons h .nil
  | array elem items =>
    rw [resolveLabels] at h
    obtain ⟨herr, rfl⟩ := Prod.mk.inj h
    exact itemLeaves_of_resolveItems hf (Prod.ext herr rfl)
  | table key value entries =>
    rw [resolveLabels] at h
    obtain ⟨herr, rfl⟩ := Prod.mk.inj h
    exact entryLeaves_of_resolveEntries hf (Prod.ext herr rfl)
  | _ =>
    cases h
    exact .cons rfl .nil

private theorem itemLeaves_of_resolveItems {vs ws : List Value}
    (hf : ∀ l v, f l = .ok v → v.leaves = [v]) (h : resolveItems f vs = (none, ws)) :
    List.Forall₂ (fun a b ↦ a.resolveLabels f = (none, b)) (itemLeaves vs) (itemLeaves ws) := by
  cases vs with
  | nil =>
    cases h
    exact .nil
  | cons v rest =>
    rw [resolveItems] at h
    split at h
    · cases h
    · next w hw =>
      obtain ⟨herr, rfl⟩ := Prod.mk.inj h
      exact List.rel_append (leaves_of_resolveLabels hf hw)
        (itemLeaves_of_resolveItems hf (Prod.ext herr rfl))

private theorem entryLeaves_of_resolveEntries {vs ws : List (Value × Value)}
    (hf : ∀ l v, f l = .ok v → v.leaves = [v]) (h : resolveEntries f vs = (none, ws)) :
    List.Forall₂ (fun a b ↦ a.resolveLabels f = (none, b)) (entryLeaves vs) (entryLeaves ws) := by
  cases vs with
  | nil =>
    cases h
    exact .nil
  | cons entry rest =>
    obtain ⟨k, v⟩ := entry
    rw [resolveEntries] at h
    split at h
    · cases h
    · split at h
      · cases h
      · next w hw =>
        obtain ⟨herr, rfl⟩ := Prod.mk.inj h
        exact List.rel_append (leaves_of_resolveLabels hf hw)
          (entryLeaves_of_resolveEntries hf (Prod.ext herr rfl))

end

/-- Resolving a value succeeds where no label of it is unknown. -/
theorem resolve_eq_ok {v w : Value} :
    v.resolve f = .ok w ↔ v.resolveLabels f = (none, w) := by
  rw [resolve]
  split
  · next v' hv => rw [hv, Except.ok.injEq, Prod.mk.injEq, eq_self, true_and]
  · next hv => simp [hv]

end Value

/-- The entries of the jump table of a `switch`. -/
def Statement.jumpEntries (s : Statement) (constants : List Value) : List Value :=
  match s.operands with
  | _ :: .constant k :: _ => (constants[k]?).elim [] Value.leaves
  | _ :: .immediate v :: _ => v.leaves
  | _ => []

/-- The place of a label as a number. -/
def placeOf (places : String → Option Nat) (l : String) : Except Error Value :=
  (places l).elim (.error (.unresolvedLabel l)) fun t ↦ .ok (.i32 (Int32.ofNat t))

/-- The distance between two statements is computed exactly where both numbers have a bit to spare. -/
theorem toInt_distance {t q : Nat} (ht : t < 2 ^ 31) (hq : q < 2 ^ 31) :
    (Int32.ofNat t - Int32.ofNat q).toInt = (t : Int) - q := by
  rw [Int32.toInt_sub, Int32.toInt_ofNat_of_lt ht, Int32.toInt_ofNat_of_lt hq]
  exact Int.bmod_eq_of_le (by omega) (by omega)

/-- What becomes of an operand of the statement with number `q`, where `places` tells the places
of labels. -/
inductive Operand.Rewritten (places : String → Option Nat) (op : Opcode) (q : Nat) :
    Operand → Operand → Prop
  | handler {l : String} {t : Nat} (hop : op = .enterTry) (hl : places l = some t) :
    Rewritten places op q (.label l) (.int (Int32.ofNat t))
  | branch {l : String} {t : Nat} (hop : op.isBranch = true) (hl : places l = some t) :
    Rewritten places op q (.label l) (.int (Int32.ofNat t - Int32.ofNat q))
  | immediate {v w : Value} (hv : v.resolve (placeOf places) = .ok w) :
    Rewritten places op q (.immediate v) (.immediate w)
  | kept {operand : Operand} (hl : operand.label? = none)
      (hv : ∀ v, operand ≠ .immediate v) : Rewritten places op q operand operand

/-- A statement with number `q` is another one with its labels as numbers. -/
structure Statement.Rewritten (places : String → Option Nat) (q : Nat) (s s' : Statement) : Prop where
  op : s'.op = s.op
  comment : s'.comment = s.comment
  synthetic : s'.synthetic = s.synthetic
  operands : List.Forall₂ (Operand.Rewritten places s.op q) s.operands s'.operands

/-- Where a label of the code comes to stand. -/
def landingOf (strip : Bool) (code : List Statement) (l : String) : Option Nat :=
  (labelPosition? code l).map (landing strip code)

namespace Placement

private theorem resolve_eq_ok (hd : (labelsOf code).Nodup) :
    (ofCode strip 0 false code).resolve l = .ok k ↔ landingOf strip code l = some k := by
  rw [resolve_ofCode hd, landingOf]
  cases labelPosition? code l with
  | none => simp
  | some i => simp

private theorem resolveValue_eq (hd : (labelsOf code).Nodup) (v : Value) :
    (ofCode strip 0 false code).resolveValue v = v.resolve (placeOf (landingOf strip code)) := by
  rw [resolveValue]
  congr 1
  funext l
  rw [resolve_ofCode hd, placeOf, landingOf]
  cases labelPosition? code l <;> rfl

private theorem rewritten_of_resolveOperand (hd : (labelsOf code).Nodup) {op : Opcode} {a b : Operand}
    (h : (ofCode strip 0 false code).resolveOperand op k a = .ok b) :
    Operand.Rewritten (landingOf strip code) op k a b := by
  unfold resolveOperand at h
  split at h
  · next name =>
    obtain ⟨t, ht, h⟩ := bind_eq_ok.mp h
    rw [resolve_eq_ok hd] at ht
    split at h
    · next hop =>
      cases h
      exact .handler (eq_of_beq hop) ht
    · split at h
      · next hop =>
        cases h
        exact .branch hop ht
      · cases h
  · next v =>
    obtain ⟨w, hw, h⟩ := bind_eq_ok.mp h
    cases h
    rw [resolveValue_eq hd] at hw
    exact .immediate hw
  · next hlabel himm =>
    cases h
    refine .kept ?_ himm
    cases a with
    | label name => exact (hlabel name rfl).elim
    | _ => rfl

/-- No label is kept. -/
theorem label?_of_mem_statements {next : Nat} {dead : Bool}
    (h : s ∈ (ofCode strip next dead code).statements) : s.label? = none := by
  induction code generalizing next dead with
  | nil => cases h
  | cons t rest ih =>
    rw [ofCode] at h
    split at h
    · exact ih h
    · next hl =>
      split at h
      · exact ih h
      · rcases List.mem_cons.mp h with rfl | h
        · exact hl
        · exact ih h

/-- Statements keep their places when their labels become numbers. -/
private theorem rewritten_of_resolveStatements (hd : (labelsOf code).Nodup) {out : List Statement}
    (h : (ofCode strip 0 false code).resolveStatements = .ok out) :
    out.length = (ofCode strip 0 false code).statements.length ∧
      ∀ (q : Nat) (s : Statement), (ofCode strip 0 false code).statements[q]? = some s →
        ∃ s', out[q]? = some s' ∧ s.Rewritten (landingOf strip code) q s' := by
  have hall := forall₂_of_mapM h
  refine ⟨?_, fun q s hs ↦ ?_⟩
  · rw [← hall.length_eq, List.length_zipIdx]
  · obtain ⟨s', hs', hmap⟩ := exists_of_forall₂ hall (a := (s, q)) (i := q) (by
      rw [List.getElem?_zipIdx, hs, Nat.zero_add]
      rfl)
    obtain ⟨operands, hoperands, hmap⟩ := bind_eq_ok.mp hmap
    cases hmap
    exact ⟨_, hs', rfl, rfl, rfl,
      (forall₂_of_mapM hoperands).imp fun a b ↦ rewritten_of_resolveOperand hd⟩

end Placement

/-- Placed code is what the kept statements of code with labels become. -/
structure PlacedAs (strip : Bool) (code : List Statement) (constants : List Value)
    (placed : PlacedCode) : Prop where
  length : placed.statements.length = (Placement.ofCode strip 0 false code).statements.length
  statement : ∀ (q : Nat) (s : Statement),
    (Placement.ofCode strip 0 false code).statements[q]? = some s →
      ∃ s', placed.statements[q]? = some s' ∧ s.Rewritten (landingOf strip code) q s'
  constants : List.Forall₂ (fun v w ↦ v.resolve (placeOf (landingOf strip code)) = .ok w) constants
    placed.constants

/-- Placing works on the code with its ranges merged, if they are to be. -/
theorem placedAs_of_place {constants : List Value} {o : Options} {placed : PlacedCode}
    (hd : (labelsOf code).Nodup) (h : place code constants o = .ok placed) :
    ∃ merged, (if o.mergeNullify then mergeNullify code else .ok code) = .ok merged ∧
      Merged code merged ∧ PlacedAs o.stripUnreachable merged constants placed := by
  have hchosen : ∃ merged, (if o.mergeNullify then mergeNullify code else .ok code) = .ok merged ∧
      Merged code merged ∧ (do
        let p := Placement.ofCode o.stripUnreachable 0 false merged
        let statements ← p.resolveStatements
        let values ← constants.mapM p.resolveValue
        return PlacedCode.mk statements values) = .ok placed := by
    rw [place] at h
    by_cases ho : o.mergeNullify = true
    · rw [if_pos ho] at h ⊢
      obtain ⟨merged, hmerge, h⟩ := bind_eq_ok.mp h
      exact ⟨merged, hmerge, merged_of_mergeNullify hmerge, h⟩
    · rw [if_neg ho] at h ⊢
      obtain ⟨_, -, h⟩ := bind_eq_ok.mp h
      exact ⟨code, rfl, .refl code, h⟩
  obtain ⟨merged, hmerge, hmerged, h⟩ := hchosen
  obtain ⟨statements, hstatements, h⟩ := bind_eq_ok.mp h
  obtain ⟨values, hvalues, h⟩ := bind_eq_ok.mp h
  cases h
  have hd' : (labelsOf merged).Nodup := by rwa [hmerged.labelsOf_eq]
  obtain ⟨hlength, hstatement⟩ := Placement.rewritten_of_resolveStatements hd' hstatements
  refine ⟨merged, hmerge, hmerged, hlength, hstatement, ?_⟩
  refine (forall₂_of_mapM hvalues).imp fun v w hw ↦ ?_
  rwa [Placement.resolveValue_eq hd'] at hw

end MethodCompiler
