import MethodCompiler.Proofs.Landing

/-!
# Runs of placed code

Code as a transition system: what a statement does to control depends on choices from outside and on
how its operands name places. Code with labels and the code that placing makes of it, read with numbers
for places, run through the same statements under the same choices.
-/

namespace MethodCompiler

/-! ### Runs -/

def Value.int? : Value → Option Int32
  | .i32 d => some d
  | _ => none

def Operand.int? : Operand → Option Int32
  | .immediate v => v.int?
  | _ => none

/-- How operands and the entries of jump tables name places. -/
structure Reading where
  /-- The last operand of the branch at a position. -/
  target : Nat → Operand → Option Nat
  /-- The catch and the finally operand of a `try`. -/
  handler : Operand → Option Nat
  entry : Value → Option Nat

namespace Reading

/-- Places are named by labels of the code. -/
def byLabel (code : List Statement) : Reading where
  target _ operand := operand.label?.bind (labelPosition? code)
  handler operand := operand.label?.bind (labelPosition? code)
  entry v := v.label?.bind (labelPosition? code)

/-- Places are positions, except that a branch holds the distance from itself. -/
def byNumber : Reading where
  target i operand := operand.int?.bind fun d ↦ (i + d.toInt).toNat?
  handler operand := operand.int?.bind fun d ↦ d.toInt.toNat?
  entry v := v.int?.bind fun d ↦ d.toInt.toNat?

end Reading

/-- What decides where control goes after a statement. -/
inductive Choice where
  | next
  /-- A branch goes to its target. -/
  | taken
  /-- A `switch` goes where an entry of its table leads. -/
  | entry (k : Nat)
  /-- Control enters a handler of one of the `try` statements that ran before. -/
  | handler (k : Nat)

/-- A position, with the catch and the finally place of each `try` that ran before. -/
structure Point where
  position : Nat
  handlers : List (Option Nat) := []

/-- The first position from `i` on that has no label. -/
def skipLabels (code : List Statement) (i : Nat) : Nat :=
  i + ((code.drop i).takeWhile (·.label?.isSome)).length

namespace Reading

/-- The handlers that a statement enables. -/
def enabled (R : Reading) (s : Statement) : List (Option Nat) :=
  if s.op = .enterTry then [s.operands[0]?.bind R.handler, s.operands[1]?.bind R.handler] else []

/-- Where control goes after the statement at position `i`, if the choice is one that it has. -/
def follow (R : Reading) (constants : List Value) (handlers : List (Option Nat)) (i : Nat)
    (s : Statement) : Choice → Option Nat
  | .next => if s.op.isUnconditionalExit then none else some (i + 1)
  | .taken => if s.op.isBranch then s.operands.getLast?.bind (R.target i) else none
  | .entry k => if s.op = .switch then (s.jumpEntries constants)[k]?.bind R.entry else none
  | .handler k => handlers[k]?.bind id

/-- The statements that run from a point on with their positions, until control leaves the code or a
choice is none that the statement has. Labels are passed by. -/
def run (R : Reading) (code : List Statement) (constants : List Value) :
    List Choice → Point → List (Nat × Statement)
  | choices, p =>
    let i := skipLabels code p.position
    match code[i]? with
    | none => []
    | some s =>
      let handlers := p.handlers ++ R.enabled s
      (i, s) :: match choices with
        | [] => []
        | choice :: rest =>
          (R.follow constants handlers i s choice).elim [] fun j ↦
            R.run code constants rest ⟨j, handlers⟩

end Reading

/-- An immediate that a reading by number takes for a place, at once or when labels are replaced. -/
def Operand.isNumeric : Operand → Bool
  | .immediate (.i32 _) | .immediate (.label _) => true
  | _ => false

/-- Code that names places by labels only. -/
structure Symbolic (code : List Statement) (constants : List Value) : Prop where
  branch : ∀ s ∈ code, s.op.isBranch = true → s.operands.getLast?.any Operand.isNumeric = false
  handler : ∀ s ∈ code, s.op = .enterTry → ∀ operand ∈ s.operands, operand.isNumeric = false
  entry : ∀ s ∈ code, s.op = .switch → ∀ v ∈ s.jumpEntries constants, v.int? = none

variable {strip : Bool} {code : List Statement} {constants : List Value} {strict : Prop} {i : Nat}

private theorem Reading.run_of_none {R : Reading} {p : Point} (choices : List Choice)
    (h : code[skipLabels code p.position]? = none) : R.run code constants choices p = [] := by
  rw [run, h]

private theorem Reading.run_of_some {R : Reading} {p : Point} {s : Statement} (choices : List Choice)
    (h : code[skipLabels code p.position]? = some s) :
    R.run code constants choices p =
      (skipLabels code p.position, s) :: match choices with
        | [] => []
        | choice :: rest =>
          (R.follow constants (p.handlers ++ R.enabled s) (skipLabels code p.position) s choice).elim
            [] fun j ↦ R.run code constants rest ⟨j, p.handlers ++ R.enabled s⟩ := by
  rw [run, h]

private theorem skipLabels_of_label {l : String} (h : labelAt? code i = some l) :
    skipLabels code i = skipLabels code (i + 1) := by
  obtain ⟨s, hs, hl⟩ := Option.bind_eq_some_iff.mp h
  obtain ⟨hi, rfl⟩ := List.getElem?_eq_some_iff.mp hs
  rw [skipLabels, skipLabels, List.drop_eq_getElem_cons hi,
    List.takeWhile_cons_of_pos (by rw [hl]; rfl), List.length_cons]
  omega

private theorem skipLabels_of_none (h : labelAt? code i = none) : skipLabels code i = i := by
  rw [skipLabels]
  cases hs : code[i]? with
  | none =>
    rw [List.drop_eq_nil_of_le (List.getElem?_eq_none_iff.mp hs)]
    rfl
  | some s =>
    obtain ⟨hi, rfl⟩ := List.getElem?_eq_some_iff.mp hs
    rw [labelAt?_eq hs] at h
    rw [List.drop_eq_getElem_cons hi, List.takeWhile_cons_of_neg (by rw [h]; decide)]
    rfl

/-- Passing labels by does not change where control lands. -/
private theorem skipLabels_spec (strip : Bool) (i : Nat) (h : Alive code i) :
    labelAt? code (skipLabels code i) = none ∧ Alive code (skipLabels code i) ∧
      landing strip code (skipLabels code i) = landing strip code i := by
  cases hl : labelAt? code i with
  | none =>
    rw [skipLabels_of_none hl]
    exact ⟨hl, h, rfl⟩
  | some l =>
    have hi : i < code.length := by
      obtain ⟨s, hs, -⟩ := Option.bind_eq_some_iff.mp hl
      exact (List.getElem?_eq_some_iff.mp hs).1
    rw [skipLabels_of_label hl, ← landing_label hl]
    exact skipLabels_spec strip (i + 1) (alive_label hl)
termination_by code.length - i

/-! ### Places before and after -/

/-- A place of the code with labels, if there is one, and the place of the placed code that it has
become. If all is `strict` there is none where there was none. -/
structure LandsAt (strip : Bool) (code : List Statement) (strict : Prop) (a b : Option Nat) :
    Prop where
  lands : ∀ t, a = some t → Alive code t ∧ b = some (landing strip code t)
  missing : strict → a = none → b = none

namespace LandsAt

private theorem nowhere : LandsAt strip code strict none none := by
  refine ⟨fun t ht ↦ ?_, fun _ h ↦ h⟩
  cases ht

private theorem somewhere (h : Alive code i) :
    LandsAt strip code strict (some i) (some (landing strip code i)) := by
  constructor
  · intro t ht
    cases ht
    exact ⟨h, rfl⟩
  · intro _ hn
    cases hn

private theorem bind {α β : Type} {R : α → β → Prop} {x : Option α} {y : Option β}
    {f : α → Option Nat} {g : β → Option Nat} (hxy : Option.Rel R x y)
    (hfg : ∀ a b, x = some a → R a b → LandsAt strip code strict (f a) (g b)) :
    LandsAt strip code strict (x.bind f) (y.bind g) := by
  cases hxy with
  | none => exact nowhere
  | some hab => exact hfg _ _ rfl hab

end LandsAt

/-- A label lands where its statement does. -/
private theorem landsAt_label (strict : Prop) {l : String} {t : Nat}
    (h : landingOf strip code l = some t) :
    LandsAt strip code strict (labelPosition? code l) (some t) ∧ t ≤ code.length := by
  obtain ⟨i, hi, rfl⟩ := Option.map_eq_some_iff.mp h
  obtain ⟨hlt, hlabel, -⟩ := List.findIdx?_eq_some_iff_getElem.mp hi
  rw [hi]
  constructor
  · refine LandsAt.somewhere (.inl ?_)
    rw [labelAt?_eq (List.getElem?_eq_getElem hlt), eq_of_beq hlabel]
    rfl
  · exact Nat.le_trans (landing_le strip code i) (Nat.le_of_lt hlt)

/-- A value without a number and other than a label has none after labels are replaced. -/
private theorem int?_of_resolve {places : String → Option Nat} {v w : Value}
    (h : v.resolve (placeOf places) = .ok w) (hl : v.label? = none) : w.int? = v.int? := by
  rw [Value.resolve_eq_ok] at h
  cases v with
  | label name => cases hl
  | array elem items =>
    rw [Value.resolveLabels] at h
    obtain ⟨-, rfl⟩ := Prod.mk.inj h
    rfl
  | table key value entries =>
    rw [Value.resolveLabels] at h
    obtain ⟨-, rfl⟩ := Prod.mk.inj h
    rfl
  | _ =>
    cases h
    rfl

section Readings

variable {op : Opcode} {q : Nat} {a b : Operand} (hlen : code.length < 2 ^ 31)
  (hab : Operand.Rewritten (landingOf strip code) op q a b)

include hab

/-- An operand that no label names a place with names none afterwards. -/
private theorem int?_of_rewritten (hl : a.label? = none) (hn : a.isNumeric = false) :
    b.int? = none := by
  cases hab with
  | handler => cases hl
  | branch => cases hl
  | @immediate v w hv =>
    cases v with
    | label name => cases hn
    | i32 d => cases hn
    | _ => exact int?_of_resolve hv rfl
  | kept _ hv =>
    cases a with
    | immediate v => exact absurd rfl (hv v)
    | _ => rfl

include hlen

private theorem landsAt_target (hop : op.isBranch = true) (hq : q < 2 ^ 31)
    (hn : strict → a.isNumeric = false) :
    LandsAt strip code strict ((Reading.byLabel code).target i a) (Reading.byNumber.target q b) := by
  cases hl : a.label? with
  | none =>
    refine ⟨fun t ht ↦ ?_, fun hstrict _ ↦ ?_⟩
    · simp [Reading.byLabel, hl] at ht
    · simp [Reading.byNumber, int?_of_rewritten hab hl (hn hstrict)]
  | some l =>
    cases hab with
    | handler hop' =>
      rw [hop'] at hop
      cases hop
    | @branch l t _ ht =>
      obtain ⟨hlands, hle⟩ := landsAt_label strict ht
      have hnumber : Reading.byNumber.target q (.int (Int32.ofNat t - Int32.ofNat q)) = some t := by
        have hdist := toInt_distance (t := t) (q := q) (by omega) hq
        simp only [Reading.byNumber, Operand.int, Operand.int?, Value.int?, Option.bind_some,
          hdist, Int.mem_toNat?]
        omega
      rw [hnumber]
      exact hlands
    | immediate => cases hl
    | kept hl' =>
      rw [hl'] at hl
      cases hl

private theorem landsAt_handler (hop : op = .enterTry) (hn : strict → a.isNumeric = false) :
    LandsAt strip code strict ((Reading.byLabel code).handler a) (Reading.byNumber.handler b) := by
  cases hl : a.label? with
  | none =>
    refine ⟨fun t ht ↦ ?_, fun hstrict _ ↦ ?_⟩
    · simp [Reading.byLabel, hl] at ht
    · simp [Reading.byNumber, int?_of_rewritten hab hl (hn hstrict)]
  | some l =>
    cases hab with
    | @handler l t _ ht =>
      obtain ⟨hlands, hle⟩ := landsAt_label strict ht
      have hnumber : Reading.byNumber.handler (.int (Int32.ofNat t)) = some t := by
        have hpos := Int32.toInt_ofNat_of_lt (n := t) (by omega)
        simp [Reading.byNumber, Operand.int, Operand.int?, Value.int?, hpos, Int.mem_toNat?]
      rw [hnumber]
      exact hlands
    | branch hop' =>
      rw [hop] at hop'
      cases hop'
    | immediate => cases hl
    | kept hl' =>
      rw [hl'] at hl
      cases hl

end Readings

private theorem landsAt_entry (hlen : code.length < 2 ^ 31) {a b : Value}
    (hab : a.resolveLabels (placeOf (landingOf strip code)) = (none, b))
    (hn : strict → a.int? = none) :
    LandsAt strip code strict ((Reading.byLabel code).entry a) (Reading.byNumber.entry b) := by
  rw [← Value.resolve_eq_ok] at hab
  cases hl : a.label? with
  | none =>
    refine ⟨fun t ht ↦ ?_, fun hstrict _ ↦ ?_⟩
    · simp [Reading.byLabel, hl] at ht
    · simp [Reading.byNumber, int?_of_resolve hab hl, hn hstrict]
  | some l =>
    cases a with
    | label name =>
      rw [Value.resolve_eq_ok, Value.resolveLabels, placeOf] at hab
      cases ht : landingOf strip code name with
      | none => simp [ht] at hab
      | some t =>
        obtain ⟨hlands, hle⟩ := landsAt_label strict ht
        have hpos := Int32.toInt_ofNat_of_lt (n := t) (by omega)
        have hnumber : Reading.byNumber.entry b = some t := by
          simp only [ht, Option.elim_some, Prod.mk.injEq, true_and] at hab
          rw [← hab]
          simp [Reading.byNumber, Value.int?, hpos, Int.mem_toNat?]
        rw [hnumber]
        exact hlands
    | _ => cases hl

/-- The jump table of a `switch` has an entry for each entry that it had before. -/
private theorem forall₂_jumpEntries {places : String → Option Nat} {values : List Value} {q : Nat}
    {s s' : Statement}
    (hconstants : List.Forall₂ (fun v w ↦ v.resolve (placeOf places) = .ok w) constants values)
    (h : s.Rewritten places q s') (hop : s.op = .switch) :
    List.Forall₂ (fun a b ↦ a.resolveLabels (placeOf places) = (none, b))
      (s.jumpEntries constants) (s'.jumpEntries values) := by
  have hscalar (l : String) (v : Value) (hv : placeOf places l = .ok v) : v.leaves = [v] := by
    rw [placeOf] at hv
    cases hl : places l with
    | none => simp [hl] at hv
    | some t =>
      simp only [hl, Option.elim_some, Except.ok.injEq] at hv
      rw [← hv]
      rfl
  have hleaves {v w : Value} (hv : v.resolve (placeOf places) = .ok w) :=
    Value.leaves_of_resolveLabels hscalar (Value.resolve_eq_ok.mp hv)
  have hoperands := h.operands
  unfold Statement.jumpEntries
  generalize s.operands = before, s'.operands = after at hoperands
  cases hoperands with
  | nil => exact .nil
  | cons _ hrest =>
    cases hrest with
    | nil => exact .nil
    | @cons second second' _ _ hsecond _ =>
      rw [hop] at hsecond
      cases hsecond with
      | handler hop => cases hop
      | branch hop => cases hop
      | immediate hv => exact hleaves hv
      | kept hl hv =>
        cases second with
        | immediate v => exact absurd rfl (hv v)
        | label name => cases hl
        | constant k =>
          have hrel := rel_getElem? hconstants k
          simp only
          generalize constants[k]? = v?, values[k]? = w? at hrel
          cases hrel with
          | none => exact .nil
          | some hv => exact hleaves hv
        | _ => exact .nil

/-! ### Steps and runs -/

/-- A point of the code with labels, and the point of the placed code that it has become. -/
structure Point.Lands (strip : Bool) (code : List Statement) (strict : Prop) (p p' : Point) :
    Prop where
  alive : Alive code p.position
  position : p'.position = landing strip code p.position
  handlers : List.Forall₂ (LandsAt strip code strict) p.handlers p'.handlers

section Step

variable {placed : PlacedCode} {s s' : Statement} {handlers handlers' : List (Option Nat)}
  (hlen : code.length < 2 ^ 31) (hsym : strict → Symbolic code constants)
  (hs : code[i]? = some s)
  (hr : s.Rewritten (landingOf strip code) (landing strip code i) s')

include hlen hsym hs hr

private theorem lands_enabled :
    List.Forall₂ (LandsAt strip code strict) ((Reading.byLabel code).enabled s)
      (Reading.byNumber.enabled s') := by
  unfold Reading.enabled
  rw [hr.op]
  by_cases hop : s.op = .enterTry
  · have hoperand (k : Nat) : LandsAt strip code strict
        (s.operands[k]?.bind (Reading.byLabel code).handler)
        (s'.operands[k]?.bind Reading.byNumber.handler) := by
      refine .bind (rel_getElem? hr.operands k) fun a b ha hab ↦ ?_
      refine landsAt_handler hlen hab hop fun hstrict ↦ ?_
      exact (hsym hstrict).handler s (List.mem_of_getElem? hs) hop a (List.mem_of_getElem? ha)
    rw [if_pos hop, if_pos hop]
    exact .cons (hoperand 0) (.cons (hoperand 1) .nil)
  · rw [if_neg hop, if_neg hop]
    exact .nil

/-- Under each choice both statements go to places that correspond. -/
private theorem lands_follow (hconstants : List.Forall₂
      (fun v w ↦ v.resolve (placeOf (landingOf strip code)) = .ok w) constants placed.constants)
    (ha : Alive code i) (hl : s.label? = none)
    (hhandlers : List.Forall₂ (LandsAt strip code strict) handlers handlers') (choice : Choice) :
    LandsAt strip code strict ((Reading.byLabel code).follow constants handlers i s choice)
      (Reading.byNumber.follow placed.constants handlers' (landing strip code i) s' choice) := by
  have hmem := List.mem_of_getElem? hs
  have hi : landing strip code i < 2 ^ 31 := by
    have := landing_le strip code i
    have := (List.getElem?_eq_some_iff.mp hs).1
    omega
  cases choice with
  | next =>
    simp only [Reading.follow, hr.op]
    by_cases hexit : s.op.isUnconditionalExit = true
    · rw [if_pos hexit, if_pos hexit]
      exact .nowhere
    · rw [if_neg hexit, if_neg hexit, ← (getElem?_landing hs hl ha strip).2]
      exact .somewhere (alive_succ hs hl ha (Bool.eq_false_iff.mpr hexit))
  | taken =>
    simp only [Reading.follow, hr.op]
    by_cases hop : s.op.isBranch = true
    · rw [if_pos hop, if_pos hop, List.getLast?_eq_getElem?, List.getLast?_eq_getElem?,
        ← hr.operands.length_eq]
      refine .bind (rel_getElem? hr.operands _) fun a b ha hab ↦ ?_
      refine landsAt_target hlen hab hop hi fun hstrict ↦ ?_
      have hnumeric := (hsym hstrict).branch s hmem hop
      rwa [List.getLast?_eq_getElem?, ha] at hnumeric
    · rw [if_neg hop, if_neg hop]
      exact .nowhere
  | entry k =>
    simp only [Reading.follow, hr.op]
    by_cases hop : s.op = .switch
    · rw [if_pos hop, if_pos hop]
      refine .bind (rel_getElem? (forall₂_jumpEntries hconstants hr hop) k) fun a b ha hab ↦ ?_
      refine landsAt_entry hlen hab fun hstrict ↦ ?_
      exact (hsym hstrict).entry s hmem hop a (List.mem_of_getElem? ha)
    · rw [if_neg hop, if_neg hop]
      exact .nowhere
  | handler k => exact .bind (rel_getElem? hhandlers k) fun a b _ hab ↦ hab

end Step

private theorem label?_of_rewritten {places : String → Option Nat} {q : Nat} {s s' : Statement}
    (h : s.Rewritten places q s') : s'.label? = none := by
  rw [Statement.label?]
  split
  · have hoperands := h.operands
    generalize s.operands = before, s'.operands = after at hoperands
    cases hoperands with
    | nil => rfl
    | cons hfirst _ =>
      cases hfirst with
      | kept hl => exact hl
      | _ => rfl
  · rfl

/-- A statement that has run, and the one that runs in its place in the placed code. -/
def RunsAs (strip : Bool) (code : List Statement) (a b : Nat × Statement) : Prop :=
  b.1 = landing strip code a.1 ∧ a.2.Rewritten (landingOf strip code) b.1 b.2

/-- At points that correspond the same statement is to run, or none. -/
private theorem Point.Lands.cases {placed : PlacedCode} (hplaced : PlacedAs strip code constants placed)
    {p p' : Point} (h : p.Lands strip code strict p') (hi : skipLabels code p.position = i) :
    Alive code i ∧ skipLabels placed.statements p'.position = landing strip code i ∧
      (code[i]? = none ∧ placed.statements[landing strip code i]? = none ∨
        ∃ s s', code[i]? = some s ∧ placed.statements[landing strip code i]? = some s' ∧
          s.label? = none ∧ s.Rewritten (landingOf strip code) (landing strip code i) s') := by
  obtain ⟨hlabel, halive, hlanding⟩ := skipLabels_spec strip p.position h.alive
  rw [hi] at hlabel halive hlanding
  rw [h.position, ← hlanding]
  cases hs : code[i]? with
  | none =>
    -- control has left the code, and all that was kept lies before its landing
    have hend : placed.statements[landing strip code i]? = none := by
      refine List.getElem?_eq_none_iff.mpr (Nat.le_of_eq ?_)
      rw [hplaced.length, landing_eq_length strip code (List.getElem?_eq_none_iff.mp hs)]
    refine ⟨halive, skipLabels_of_none ?_, .inl ⟨rfl, hend⟩⟩
    rw [labelAt?, hend]
    rfl
  | some s =>
    rw [labelAt?_eq hs] at hlabel
    obtain ⟨s', hs', hr⟩ := hplaced.statement _ s (getElem?_landing hs hlabel halive strip).1
    refine ⟨halive, skipLabels_of_none ?_, .inr ⟨s, s', rfl, hs', hlabel, hr⟩⟩
    rw [labelAt?_eq hs', label?_of_rewritten hr]

/-- From points that correspond the same statements run under the same choices. -/
theorem runs_of_lands {placed : PlacedCode} (hplaced : PlacedAs strip code constants placed)
    (hlen : code.length < 2 ^ 31) (hsym : strict → Symbolic code constants) {p p' : Point}
    (h : p.Lands strip code strict p') (choices : List Choice) :
    ∃ front rest,
      Reading.byNumber.run placed.statements placed.constants choices p' = front ++ rest ∧
      List.Forall₂ (RunsAs strip code) ((Reading.byLabel code).run code constants choices p) front ∧
      (strict → rest = []) := by
  induction choices generalizing p p' with
  | nil =>
    obtain ⟨halive, hskip, ⟨hs, hs'⟩ | ⟨s, s', hs, hs', hl, hr⟩⟩ := h.cases hplaced rfl
    · rw [Reading.run_of_none _ hs, Reading.run_of_none _ (by rwa [hskip])]
      exact ⟨[], [], rfl, .nil, fun _ ↦ rfl⟩
    · rw [Reading.run_of_some _ hs, Reading.run_of_some _ (by rwa [hskip]), hskip]
      exact ⟨[_], [], rfl, .cons ⟨rfl, hr⟩ .nil, fun _ ↦ rfl⟩
  | cons choice choices ih =>
    obtain ⟨halive, hskip, ⟨hs, hs'⟩ | ⟨s, s', hs, hs', hl, hr⟩⟩ := h.cases hplaced rfl
    · rw [Reading.run_of_none _ hs, Reading.run_of_none _ (by rwa [hskip])]
      exact ⟨[], [], rfl, .nil, fun _ ↦ rfl⟩
    · have hhandlers : List.Forall₂ (LandsAt strip code strict)
          (p.handlers ++ (Reading.byLabel code).enabled s)
          (p'.handlers ++ Reading.byNumber.enabled s') :=
        List.rel_append h.handlers (lands_enabled hlen hsym hs hr)
      have hfollow := lands_follow hlen hsym hs hr hplaced.constants halive hl hhandlers choice
      rw [Reading.run_of_some _ hs, Reading.run_of_some _ (by rwa [hskip]), hskip]
      simp only
      cases hj : (Reading.byLabel code).follow constants
          (p.handlers ++ (Reading.byLabel code).enabled s) (skipLabels code p.position) s choice with
      | none =>
        refine ⟨[_], _, rfl, .cons ⟨rfl, hr⟩ .nil, fun hstrict ↦ ?_⟩
        rw [hfollow.missing hstrict hj]
      | some j =>
        obtain ⟨hj', hlands⟩ := hfollow.lands j hj
        rw [hlands]
        have hnext : Point.Lands strip code strict
            ⟨j, p.handlers ++ (Reading.byLabel code).enabled s⟩
            ⟨landing strip code j, p'.handlers ++ Reading.byNumber.enabled s'⟩ :=
          ⟨hj', rfl, hhandlers⟩
        obtain ⟨front, rest, hrun, hall, hrest⟩ := ih hnext
        exact ⟨_ :: front, rest, congrArg (_ :: ·) hrun, .cons ⟨rfl, hr⟩ hall, hrest⟩

/-- Placing keeps control flow. Under the same choices, the code with labels and the placed code run
through the same statements, each at its landing and with its labels as numbers. If some operand of the
code with labels is a number already, the placed code may go on where the other one stops. -/
theorem placed_code_runs_alike {o : Options} {placed : PlacedCode} (hd : (labelsOf code).Nodup)
    (hlen : code.length < 2 ^ 31) (h : place code constants o = .ok placed) :
    ∃ merged, (if o.mergeNullify then mergeNullify code else .ok code) = .ok merged ∧
      ∀ choices, ∃ front rest,
        Reading.byNumber.run placed.statements placed.constants choices ⟨0, []⟩ = front ++ rest ∧
        List.Forall₂ (RunsAs o.stripUnreachable merged)
          ((Reading.byLabel merged).run merged constants choices ⟨0, []⟩) front ∧
        (Symbolic merged constants → rest = []) := by
  obtain ⟨merged, hmerge, hmerged, hplaced⟩ := placedAs_of_place hd h
  refine ⟨merged, hmerge, fun choices ↦ ?_⟩
  have hlen' : merged.length < 2 ^ 31 := Nat.lt_of_le_of_lt hmerged.length_le hlen
  refine runs_of_lands hplaced hlen' id ⟨alive_zero merged, rfl, .nil⟩ choices

/-- A loop in protected code, left by a jump table; ranges to merge, and a dead statement to drop. -/
private def pollCode : List Statement :=
  [.of .enterTry [.label "caught", .null, .label "done"],
    .label "again",
    .of .nullify [.register 0 .i32, .register 0 .i32],
    .of .nullify [.register 1 .i32, .register 2 .i32],
    .of .switch [.input 1 .i32, .constant 0],
    .of .jumpTrue [.input 2 .bool, .label "again"],
    .jump "done",
    { Statement.of .trap [.null] with synthetic := true },
    .label "caught",
    .label "handled",
    .of .throw [.exception],
    .label "done",
    .of .ret []]

private def pollTable : List Value :=
  [.table .i32 .i32 [(.i32 1, .label "again"), (.i32 2, .label "done")]]

/-- A loop with dead code and ranges to merge runs alike once seven of its twelve statements are placed. -/
theorem pollCode_runs_alike :
    ∃ placed merged, place pollCode pollTable {} = .ok placed ∧
      mergeNullify pollCode = .ok merged ∧ merged.length = 12 ∧ placed.statements.length = 7 ∧
      ∀ choices, List.Forall₂ (RunsAs true merged)
        ((Reading.byLabel merged).run merged pollTable choices ⟨0, []⟩)
        (Reading.byNumber.run placed.statements placed.constants choices ⟨0, []⟩) := by
  obtain ⟨merged, hmerge, hruns⟩ :=
    placed_code_runs_alike (by decide : (labelsOf pollCode).Nodup) (by decide)
      (rfl : place pollCode pollTable {} = .ok _)
  cases hmerge
  refine ⟨_, _, rfl, rfl, rfl, rfl, fun choices ↦ ?_⟩
  obtain ⟨front, rest, hrun, hall, hrest⟩ := hruns choices
  rw [hrun, hrest ⟨by decide, by decide, by decide⟩, List.append_nil]
  exact hall

end MethodCompiler
